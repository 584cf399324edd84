import NaturalLanguage.Grammar.Entry
import NaturalLanguage.Proofs.Chart.Closure
import NaturalLanguage.Proofs.Chart.Operations

/-!
# A finished run has found every derivable edge

Every edge is dispatched once, over a slot that may still grow. That no pair of a waiting and a
finished edge is missed rests on an invariant about pairs: once both edges were dispatched, the
advance is in the chart. A part that is not empty waits for edges of a slot that is closed already;
an empty part and the edge that waits for it share a slot, and whichever is dispatched later meets
the other.

* `Run.Reachable`: the states of a run that dispatches its pending edges in any order.
* `Run.Invariant`: what holds in all these states; `Run.Reachable.invariant`.
* `Run.Invariant.exists_dispatch`, `Run.Invariant.exists_scan`: a step succeeds and keeps the
  invariant.
* `Run.parseWithin_ends`: a parse ends in a reachable state without pending edges, unless its limit
  does not suffice for some slot.
* `Run.edges_isLeast`: the edges of a finished run are the least closed set.
-/

namespace NaturalLanguage.Chart.Run

open Edge

/-! ### Reachable states -/

/-- The states of a run on `words` up to `position` when pending edges are dispatched in any
order. -/
inductive Reachable (g : Grammar) (words : List Word) (sym : Symbol) : Nat → Run → Prop
  | seed {run : Run} : (start words.length).add (seed sym) = .ok run → Reachable g words sym 0 run
  | dispatch {position : Nat} {run run' : Run} {e : Edge} {before after : List Edge} :
      Reachable g words sym position run → run.agenda = before ++ e :: after →
      ({ run with agenda := before ++ after } : Run).dispatch g e = .ok run' →
      Reachable g words sym position run'
  | scan {position : Nat} {run run' : Run} {word : Word} :
      Reachable g words sym position run → run.agenda = [] → words[position]? = some word →
      run.scan g position word = .ok run' → Reachable g words sym (position + 1) run'

/-- An edge that was stored and dispatched. -/
def Settled (run : Run) (e : Edge) : Prop := run.chart.contains e = true ∧ e ∉ run.agenda

/-- What holds while the slot of `position` is filled. -/
structure Invariant (g : Grammar) (words : List Word) (sym : Symbol) (position : Nat)
    (run : Run) : Prop where
  /-- There is a slot before every word and one after the last. -/
  size : run.chart.size = words.length + 1
  /-- Every edge is in the slot where it stops. -/
  aligned : run.chart.Aligned
  /-- Only derivable edges are stored. -/
  derivable {e : Edge} : run.chart.contains e = true → Derivable g words sym e
  /-- Later slots are empty. -/
  stop_le {e : Edge} : run.chart.contains e = true → e.stop ≤ position
  /-- Pending edges are stored and stop at the current position. -/
  pending {e : Edge} : e ∈ run.agenda → run.chart.contains e = true ∧ e.stop = position
  /-- The seed is stored. -/
  seed : run.chart.contains (Run.seed sym) = true
  /-- What a dispatched edge predicts is stored. -/
  predicted {e : Edge} {next : Symbol} {body : List Symbol} : run.Settled e →
    e.next? = some next → body ∈ g.alternativesOf next →
    run.chart.contains (.predict e.stop next body) = true
  /-- If both a finished edge and one that waits for it were dispatched, the advance is stored. -/
  completed {e part : Edge} : run.Settled e → run.Settled part → part.isComplete = true →
    e.stop = part.start → e.next? = some part.head →
    run.chart.contains (e.advance (.part part) part.stop) = true
  /-- The edges of earlier slots were scanned. -/
  scanned {e : Edge} {next : Symbol} {word : Word} : run.chart.contains e = true →
    e.stop < position → e.next? = some next → words[e.stop]? = some word →
    g.accepts next word = true →
    run.chart.contains (e.advance (.word next word) (e.stop + 1)) = true

variable {g : Grammar} {words : List Word} {sym : Symbol} {position : Nat} {run run' : Run}
  {fresh : List Edge}

theorem Invariant.stop_lt_size (h : Invariant g words sym position run) {e : Edge}
    (he : Derivable g words sym e) : e.stop < run.chart.size := by
  rw [h.size]
  exact Nat.lt_succ_of_le he.stop_le_length

/-- An edge that is settled after some edges were stored was settled before, unless it was the one
that was taken from the agenda. -/
theorem Stores.settled {e d : Edge} {before after : List Edge}
    (h : Stores { run with agenda := before ++ after } fresh run')
    (hagenda : run.agenda = before ++ e :: after) (hd : run'.Settled d) :
    run.Settled d ∨ d = e := by
  obtain ⟨hstored, hpending⟩ := hd
  rw [h.agenda, List.mem_append, not_or] at hpending
  have hbefore : run.chart.contains d = true := (h.contains_iff.1 hstored).resolve_right hpending.2
  by_cases hde : d = e
  · exact .inr hde
  · refine .inl ⟨hbefore, ?_⟩
    rw [hagenda]
    intro hmem
    apply hpending.1
    rcases List.mem_append.1 hmem with hmem | hmem
    · exact List.mem_append_left _ hmem
    · exact List.mem_append_right _ ((List.mem_cons.1 hmem).resolve_left hde)

/-- Taking a pending edge from the agenda keeps the invariant if all that the edge leads to is
stored: its predictions, its advances over the finished edges stored so far and the advances of the
edges stored so far over it. -/
theorem Invariant.settle {e : Edge} {before after : List Edge}
    (h : Invariant g words sym position run) (hagenda : run.agenda = before ++ e :: after)
    (hstores : Stores { run with agenda := before ++ after } fresh run')
    (hfresh : ∀ d ∈ fresh, Derivable g words sym d ∧ d.stop = position)
    (hpredicted : ∀ next body, e.next? = some next → body ∈ g.alternativesOf next →
      run'.chart.contains (.predict e.stop next body) = true)
    (hover : ∀ part, run.chart.contains part = true → part.isComplete = true →
      e.stop = part.start → e.next? = some part.head →
      run'.chart.contains (e.advance (.part part) part.stop) = true)
    (hunder : ∀ d, run.chart.contains d = true → e.isComplete = true → d.stop = e.start →
      d.next? = some e.head → run'.chart.contains (d.advance (.part e) e.stop) = true) :
    Invariant g words sym position run' where
  size := hstores.size.trans h.size
  aligned := hstores.aligned h.aligned
  derivable {d} hd := (hstores.contains_iff.1 hd).elim h.derivable fun hd => (hfresh d hd).1
  stop_le {d} hd := (hstores.contains_iff.1 hd).elim h.stop_le fun hd =>
    Nat.le_of_eq (hfresh d hd).2
  pending {d} hd := by
    rw [hstores.agenda, List.mem_append] at hd
    rcases hd with hd | hd
    · have hd' : d ∈ run.agenda := by
        rw [hagenda]
        exact List.mem_append.2 ((List.mem_append.1 hd).imp_right (List.mem_cons_of_mem e))
      obtain ⟨hstored, hstop⟩ := h.pending hd'
      exact ⟨hstores.contains_of_contains hstored, hstop⟩
    · exact ⟨hstores.contains_iff.2 (.inr hd), (hfresh d hd).2⟩
  seed := hstores.contains_of_contains h.seed
  predicted {d next body} hd hnext hbody := by
    rcases hstores.settled hagenda hd with hd | rfl
    · exact hstores.contains_of_contains (h.predicted hd hnext hbody)
    · exact hpredicted next body hnext hbody
  -- of a new pair, `e` is the waiting edge or the finished one, but not both
  completed {d part} hd hpart hcomplete hstop hnext := by
    rcases hstores.settled hagenda hd with hd | rfl
    · rcases hstores.settled hagenda hpart with hpart | rfl
      · exact hstores.contains_of_contains (h.completed hd hpart hcomplete hstop hnext)
      · exact hunder d hd.1 hcomplete hstop hnext
    · rcases hstores.settled hagenda hpart with hpart | rfl
      · exact hover part hpart.1 hcomplete hstop hnext
      · rw [not_isComplete_of_next? hnext] at hcomplete
        cases hcomplete
  scanned {d next word} hd hstop hnext hword haccepts := by
    rcases hstores.contains_iff.1 hd with hd | hd
    · exact hstores.contains_of_contains (h.scanned hd hstop hnext hword haccepts)
    · exact absurd (hfresh d hd).2 (Nat.ne_of_lt hstop)

/-- A run can store the seed, and the invariant holds then. -/
theorem exists_start (g : Grammar) (words : List Word) (sym : Symbol) :
    ∃ fresh run, (start words.length).add (Run.seed sym) = .ok run ∧
      Stores (start words.length) fresh run ∧ Invariant g words sym 0 run := by
  have hslot : (Run.seed sym).stop < (start words.length).chart.size := by
    rw [start, size_empty]
    exact Nat.succ_pos _
  obtain ⟨fresh, run, hadd, hstores, hfresh, hseed⟩ := exists_add hslot
  -- nothing was stored before, so all that is stored is fresh
  have hempty : ∀ e, (start words.length).chart.contains e ≠ true := by
    intro e he
    rw [Chart.contains_iff, start, edgesAt_empty] at he
    cases he
  have hstored : ∀ {e}, run.chart.contains e = true → e ∈ fresh := fun he =>
    (hstores.contains_iff.1 he).resolve_left (hempty _)
  have heq : ∀ {e}, e ∈ fresh → e = Run.seed sym := fun he => List.mem_singleton.1 (hfresh he)
  have hagenda : run.agenda = fresh := hstores.agenda
  -- the seed is pending, so nothing was dispatched yet
  have hsettled : ∀ {e}, ¬ run.Settled e := fun he => he.2 (hagenda ▸ hstored he.1)
  refine ⟨fresh, run, hadd, hstores, ?_⟩
  exact {
    size := by rw [hstores.size, start, size_empty]
    aligned := hstores.aligned fun position e he => by
      rw [start, edgesAt_empty] at he
      cases he
    derivable := fun he => heq (hstored he) ▸ .seed
    stop_le := fun he => heq (hstored he) ▸ Nat.le_refl 0
    pending := fun he => by
      rw [hagenda] at he
      exact ⟨heq he ▸ hseed, heq he ▸ rfl⟩
    seed := hseed
    predicted := fun he => absurd he hsettled
    completed := fun he => absurd he hsettled
    scanned := fun _ hstop => absurd hstop (Nat.not_lt_zero _) }

/-- Dispatching a finished edge succeeds and keeps the invariant. -/
theorem Invariant.exists_complete {e : Edge} {before after : List Edge}
    (h : Invariant g words sym position run) (hagenda : run.agenda = before ++ e :: after)
    (he : e.isComplete = true) :
    ∃ fresh run', ({ run with agenda := before ++ after } : Run).complete e = .ok run' ∧
      Stores { run with agenda := before ++ after } fresh run' ∧
      Invariant g words sym position run' := by
  obtain ⟨hstored, hstop⟩ := h.pending (hagenda ▸ List.mem_append_right _ List.mem_cons_self)
  have hderivable := h.derivable hstored
  have haligned : ({ run with agenda := before ++ after } : Run).chart.Aligned := h.aligned
  have hlt := h.stop_lt_size hderivable
  obtain ⟨fresh, run', hcomplete, hstores, hfresh, hall⟩ := Run.exists_complete haligned he
    (Nat.lt_of_le_of_lt hderivable.start_le_stop hlt) hlt
  refine ⟨fresh, run', hcomplete, hstores, h.settle hagenda hstores ?_ ?_ ?_ ?_⟩
  · intro d hd
    obtain ⟨w, hw, hwstop, hnext, rfl⟩ := hfresh d hd
    exact ⟨.complete (h.derivable hw) hderivable he hwstop hnext, hstop⟩
  -- a finished edge expects nothing, so it neither predicts nor waits
  · intro next body hnext
    rw [not_isComplete_of_next? hnext] at he
    cases he
  · intro part _ _ _ hnext
    rw [not_isComplete_of_next? hnext] at he
    cases he
  · intro d hd _ hdstop hnext
    exact hall d hd hdstop hnext

/-- Dispatching an edge that expects a symbol succeeds and keeps the invariant. -/
theorem Invariant.exists_predict {e : Edge} {before after : List Edge}
    (h : Invariant g words sym position run) (hagenda : run.agenda = before ++ e :: after)
    (he : e.isComplete ≠ true) :
    ∃ fresh run', ({ run with agenda := before ++ after } : Run).predict g e = .ok run' ∧
      Stores { run with agenda := before ++ after } fresh run' ∧
      Invariant g words sym position run' := by
  obtain ⟨hstored, hstop⟩ := h.pending (hagenda ▸ List.mem_append_right _ List.mem_cons_self)
  have hderivable := h.derivable hstored
  have hlt : e.stop < ({ run with agenda := before ++ after } : Run).chart.size :=
    h.stop_lt_size hderivable
  obtain ⟨fresh₁, run₁, hadd₁, hstores₁, hfresh₁, hall₁⟩ := exists_addAll_predictions (g := g) hlt
  obtain ⟨fresh₂, run₂, hadd₂, hstores₂, hfresh₂, hall₂⟩ :=
    exists_addAll_emptyParts (hstores₁.aligned h.aligned) (hstores₁.size ▸ hlt)
  have hpredicted : ∀ d ∈ fresh₁, Derivable g words sym d ∧ d.stop = position := by
    intro d hd
    obtain ⟨next, hnext, body, hbody, rfl⟩ := hfresh₁ d hd
    exact ⟨.predict hderivable hnext hbody, hstop⟩
  refine ⟨fresh₁ ++ fresh₂, run₂, ?_, hstores₁.trans hstores₂,
    h.settle hagenda (hstores₁.trans hstores₂) ?_ ?_ ?_ ?_⟩
  · rw [predict, hadd₁]
    exact hadd₂
  · intro d hd
    rcases List.mem_append.1 hd with hd | hd
    · exact hpredicted d hd
    -- an empty part was stored before, or it is a prediction without symbols
    · obtain ⟨part, hpart, hpartstop, hcomplete, hstart, hnext, rfl⟩ := hfresh₂ d hd
      have hpart' : Derivable g words sym part := by
        rcases hstores₁.contains_iff.1 hpart with hpart | hpart
        · exact h.derivable hpart
        · exact (hpredicted part hpart).1
      exact ⟨.complete hderivable hpart' hcomplete hstart hnext, hpartstop.trans hstop⟩
  · intro next body hnext hbody
    exact hstores₂.contains_of_contains (hall₁ next body hnext hbody)
  · intro part hpart hcomplete hstart hnext
    -- a part that begins at the current position stops there, since later slots are empty
    have hle : part.start ≤ part.stop := (h.derivable hpart).start_le_stop
    have hpartstop : part.stop = e.stop := by
      have := h.stop_le hpart
      omega
    exact hall₂ part (hstores₁.contains_of_contains hpart) hpartstop hcomplete hstart hnext
  · intro d _ hcomplete
    exact absurd hcomplete he

/-- Dispatching a pending edge succeeds and keeps the invariant. -/
theorem Invariant.exists_dispatch {e : Edge} {before after : List Edge}
    (h : Invariant g words sym position run) (hagenda : run.agenda = before ++ e :: after) :
    ∃ fresh run', ({ run with agenda := before ++ after } : Run).dispatch g e = .ok run' ∧
      Stores { run with agenda := before ++ after } fresh run' ∧
      Invariant g words sym position run' := by
  unfold dispatch
  by_cases he : e.isComplete = true
  · rw [if_pos he]
    exact h.exists_complete hagenda he
  · rw [if_neg he]
    exact h.exists_predict hagenda he

/-- Storing edges that stop at the next position moves the invariant there, if nothing is pending
and every edge of the current slot that accepts the next word was advanced over it. -/
theorem Invariant.advance {word : Word} (h : Invariant g words sym position run)
    (hagenda : run.agenda = []) (hword : words[position]? = some word)
    (hstores : Stores run fresh run')
    (hfresh : ∀ d ∈ fresh, Derivable g words sym d ∧ d.stop = position + 1)
    (hscanned : ∀ e next, run.chart.contains e = true → e.stop = position →
      e.next? = some next → g.accepts next word = true →
      run'.chart.contains (e.advance (.word next word) (e.stop + 1)) = true) :
    Invariant g words sym (position + 1) run' := by
  have hpending : run'.agenda = fresh := by rw [hstores.agenda, hagenda, List.nil_append]
  -- all edges of the old slots were dispatched, all new ones are pending
  have hsettled : ∀ {e}, run'.Settled e → run.Settled e := by
    rintro e ⟨hstored, hnot⟩
    refine ⟨(hstores.contains_iff.1 hstored).resolve_right (hpending ▸ hnot), ?_⟩
    rw [hagenda]
    exact List.not_mem_nil
  exact {
    size := hstores.size.trans h.size
    aligned := hstores.aligned h.aligned
    derivable := fun he => (hstores.contains_iff.1 he).elim h.derivable fun he => (hfresh _ he).1
    stop_le := fun he => (hstores.contains_iff.1 he).elim
      (fun he => Nat.le_succ_of_le (h.stop_le he)) fun he => Nat.le_of_eq (hfresh _ he).2
    pending := fun he =>
      ⟨hstores.contains_iff.2 (.inr (hpending ▸ he)), (hfresh _ (hpending ▸ he)).2⟩
    seed := hstores.contains_of_contains h.seed
    predicted := fun he hnext hbody =>
      hstores.contains_of_contains (h.predicted (hsettled he) hnext hbody)
    completed := fun he hpart hcomplete hstop hnext =>
      hstores.contains_of_contains
        (h.completed (hsettled he) (hsettled hpart) hcomplete hstop hnext)
    scanned := fun {e next word'} he hstop hnext hword' haccepts => by
      have he' : run.chart.contains e = true := (hstores.contains_iff.1 he).resolve_right fun he =>
        Nat.ne_of_lt hstop (hfresh e he).2
      -- the edge was scanned with an earlier slot, or its slot is the one scanned now
      rcases Nat.lt_succ_iff_lt_or_eq.1 hstop with hstop | hstop
      · exact hstores.contains_of_contains (h.scanned he' hstop hnext hword' haccepts)
      · rw [hstop, hword] at hword'
        cases hword'
        exact hscanned e next he' hstop hnext haccepts }

/-- Scanning the next word over a closed slot succeeds and moves the invariant to the next
position. -/
theorem Invariant.exists_scan {word : Word} (h : Invariant g words sym position run)
    (hagenda : run.agenda = []) (hword : words[position]? = some word) :
    ∃ fresh run', run.scan g position word = .ok run' ∧ Stores run fresh run' ∧
      Invariant g words sym (position + 1) run' := by
  have hlt : position + 1 < run.chart.size := by
    rw [h.size]
    exact Nat.succ_lt_succ (List.getElem?_eq_some_iff.1 hword).1
  obtain ⟨fresh, run', hscan, hstores, hfresh, hall⟩ :=
    Run.exists_scan (g := g) h.aligned hlt word
  refine ⟨fresh, run', hscan, hstores, h.advance hagenda hword hstores ?_ hall⟩
  intro d hd
  obtain ⟨e, next, he, hstop, hnext, haccepts, rfl⟩ := hfresh d hd
  exact ⟨.scan (h.derivable he) hnext (hstop ▸ hword) haccepts, congrArg (· + 1) hstop⟩

/-- A run that stored the seed holds the invariant. -/
theorem exists_of_add_seed (h : (start words.length).add (Run.seed sym) = .ok run) :
    ∃ fresh, Stores (start words.length) fresh run ∧ Invariant g words sym 0 run := by
  obtain ⟨fresh, run', hadd, hstores, hinv⟩ := exists_start g words sym
  obtain rfl : run = run' := Except.ok.inj (h.symm.trans hadd)
  exact ⟨fresh, hstores, hinv⟩

/-- A run that dispatched a pending edge keeps the invariant. -/
theorem Invariant.exists_of_dispatch {e : Edge} {before after : List Edge}
    (h : Invariant g words sym position run) (hagenda : run.agenda = before ++ e :: after)
    (hdispatch : ({ run with agenda := before ++ after } : Run).dispatch g e = .ok run') :
    ∃ fresh, Stores { run with agenda := before ++ after } fresh run' ∧
      Invariant g words sym position run' := by
  obtain ⟨fresh, next, hnext, hstores, hinv⟩ := h.exists_dispatch hagenda
  obtain rfl : run' = next := Except.ok.inj (hdispatch.symm.trans hnext)
  exact ⟨fresh, hstores, hinv⟩

/-- A run that scanned the next word holds the invariant of the next position. -/
theorem Invariant.exists_of_scan {word : Word} (h : Invariant g words sym position run)
    (hagenda : run.agenda = []) (hword : words[position]? = some word)
    (hscan : run.scan g position word = .ok run') :
    ∃ fresh, Stores run fresh run' ∧ Invariant g words sym (position + 1) run' := by
  obtain ⟨fresh, next, hnext, hstores, hinv⟩ := h.exists_scan hagenda hword
  obtain rfl : run' = next := Except.ok.inj (hscan.symm.trans hnext)
  exact ⟨fresh, hstores, hinv⟩

/-- The invariant holds in every reachable state. -/
theorem Reachable.invariant (h : Reachable g words sym position run) :
    Invariant g words sym position run := by
  induction h with
  | seed hadd =>
    obtain ⟨fresh, -, hinv⟩ := exists_of_add_seed hadd
    exact hinv
  | dispatch _ hagenda hdispatch ih =>
    obtain ⟨fresh, -, hinv⟩ := ih.exists_of_dispatch hagenda hdispatch
    exact hinv
  | scan _ hagenda hword hscan ih =>
    obtain ⟨fresh, -, hinv⟩ := ih.exists_of_scan hagenda hword hscan
    exact hinv

/-! ### Closing a slot and filling a chart -/

/-- Closing a slot with pending edges dispatches the oldest one first. -/
theorem exists_next {e : Edge} {rest : List Edge} (h : Reachable g words sym position run)
    (hagenda : run.agenda = e :: rest) :
    ∃ fresh next, Stores { run with agenda := rest } fresh next ∧
      Reachable g words sym position next ∧
      ∀ limit, run.closeWithin g (limit + 1) = next.closeWithin g limit := by
  -- first in, first out: nothing is pending before the edge that is dispatched
  have hfirst : run.agenda = [] ++ e :: rest := hagenda
  obtain ⟨fresh, next, hdispatch, hstores, -⟩ := h.invariant.exists_dispatch hfirst
  refine ⟨fresh, next, hstores, h.dispatch hfirst hdispatch, ?_⟩
  intro limit
  rw [List.nil_append] at hdispatch
  rw [closeWithin_cons hagenda, hdispatch]
  rfl

/-- If the limit suffices, closing a slot ends in a reachable state without pending edges. -/
theorem exists_of_closeWithin {limit : Nat} (h : Reachable g words sym position run)
    (hlimit : run.closeWithin g limit ≠ .error .limitReached) :
    ∃ run', run.closeWithin g limit = .ok run' ∧ Reachable g words sym position run' ∧
      run'.agenda = [] := by
  induction limit generalizing run with
  | zero =>
    cases hagenda : run.agenda with
    | nil => exact ⟨run, closeWithin_of_agenda_nil hagenda, h, hagenda⟩
    | cons e rest =>
      unfold closeWithin at hlimit
      rw [hagenda] at hlimit
      exact absurd rfl hlimit
  | succ limit ih =>
    cases hagenda : run.agenda with
    | nil => exact ⟨run, closeWithin_of_agenda_nil hagenda, h, hagenda⟩
    | cons e rest =>
      obtain ⟨fresh, next, -, hnext, hclose⟩ := exists_next h hagenda
      rw [hclose] at hlimit ⊢
      exact ih hnext hlimit

/-- A computation ends in a reachable state without pending edges, unless the limit does not suffice
to close the slot of some reachable state. -/
inductive Ends (g : Grammar) (words : List Word) (sym : Symbol) (limit position : Nat) :
    Except ChartError Run → Prop
  | closed {run : Run} : Reachable g words sym position run → run.agenda = [] →
      Ends g words sym limit position (.ok run)
  | limit {position' : Nat} {run : Run} : Reachable g words sym position' run →
      run.closeWithin g limit = .error .limitReached →
      Ends g words sym limit position (.error .limitReached)

/-- What is computed from a closed slot on ends well if every next step does. -/
theorem Ends.bind {limit position' : Nat} {result : Except ChartError Run}
    {next : Run → Except ChartError Run} (h : Ends g words sym limit position result)
    (hnext : ∀ run, Reachable g words sym position run → run.agenda = [] →
      Ends g words sym limit position' (next run)) :
    Ends g words sym limit position' (result >>= next) := by
  cases h with
  | closed h hagenda => exact hnext _ h hagenda
  | limit h hclose => exact .limit h hclose

/-- Closing a slot ends in a closed slot, or the limit does not suffice. -/
theorem closeWithin_ends (limit : Nat) (h : Reachable g words sym position run) :
    Ends g words sym limit position (run.closeWithin g limit) := by
  by_cases hlimit : run.closeWithin g limit = .error .limitReached
  · rw [hlimit]
    exact .limit h hlimit
  · obtain ⟨run', hclose, h', hagenda⟩ := exists_of_closeWithin h hlimit
    rw [hclose]
    exact .closed h' hagenda

/-- Consuming the words that remain ends in the closed slot after the last word, or the limit does
not suffice for some slot. -/
theorem foldlM_ends {limit : Nat} {rest : List Word} :
    ∀ {before : List Word} {run : Run}, words = before ++ rest →
      Reachable g words sym before.length run → run.agenda = [] →
      Ends g words sym limit words.length
        ((rest.zipIdx before.length).foldlM (consumeWithin g limit) run) := by
  induction rest with
  | nil =>
    intro before run hwords h hagenda
    rw [List.append_nil] at hwords
    subst hwords
    exact .closed h hagenda
  | cons word rest ih =>
    intro before run hwords h hagenda
    have hword : words[before.length]? = some word := by simp [hwords]
    have hlength : (before ++ [word]).length = before.length + 1 := by simp
    have hwords' : words = (before ++ [word]) ++ rest := by
      rw [hwords, List.append_assoc, List.singleton_append]
    obtain ⟨fresh, scanned, hscan, -, -⟩ := h.invariant.exists_scan hagenda hword
    rw [List.zipIdx_cons, List.foldlM_cons, consumeWithin, hscan]
    refine (closeWithin_ends limit (h.scan hagenda hword hscan)).bind ?_
    rw [← hlength]
    intro closed hclosed hagenda'
    exact ih hwords' hclosed hagenda'

/-- A parse ends in the closed slot after the last word, or the limit does not suffice for some
slot. -/
theorem parseWithin_ends (limit : Nat) (g : Grammar) (words : List Word) (sym : Symbol) :
    Ends g words sym limit words.length (parseWithin limit g words sym) := by
  obtain ⟨fresh, first, hadd, -, -⟩ := exists_start g words sym
  rw [parseWithin, hadd]
  refine (closeWithin_ends limit (.seed hadd)).bind ?_
  intro closed hclosed hagenda
  exact foldlM_ends (List.nil_append words).symm hclosed hagenda

/-- If the limit suffices, a parse ends in a reachable state without pending edges. -/
theorem exists_of_parseWithin {limit : Nat}
    (hlimit : parseWithin limit g words sym ≠ .error .limitReached) :
    ∃ run, parseWithin limit g words sym = .ok run ∧ Reachable g words sym words.length run ∧
      run.agenda = [] := by
  have hends := parseWithin_ends limit g words sym
  generalize parseWithin limit g words sym = result at hlimit hends ⊢
  cases hends with
  | closed h hagenda => exact ⟨_, rfl, h, hagenda⟩
  | limit _ _ => exact absurd rfl hlimit

/-- A limit that suffices to close the slot of every reachable state suffices for a parse. -/
theorem parseWithin_ne {limit : Nat}
    (hclose : ∀ position run, Reachable g words sym position run →
      run.closeWithin g limit ≠ .error .limitReached) :
    parseWithin limit g words sym ≠ .error .limitReached := by
  have hends := parseWithin_ends limit g words sym
  generalize parseWithin limit g words sym = result at hends ⊢
  cases hends with
  | closed _ _ => nofun
  | limit h hlimit => exact absurd hlimit (hclose _ _ h)

/-- The edges of a run that reached the end of the sentence and has none pending are closed. -/
theorem Reachable.closed (h : Reachable g words sym words.length run) (hagenda : run.agenda = []) :
    Closed g words sym {e | run.chart.contains e = true} := by
  have hinv := h.invariant
  have hsettled : ∀ {e}, run.chart.contains e = true → run.Settled e := by
    intro e he
    refine ⟨he, ?_⟩
    rw [hagenda]
    exact List.not_mem_nil
  exact {
    seed := hinv.seed
    predict := fun he => hinv.predicted (hsettled he)
    scan := fun he hnext hword =>
      hinv.scanned he (List.getElem?_eq_some_iff.1 hword).1 hnext hword
    complete := fun he hpart => hinv.completed (hsettled he) (hsettled hpart) }

/-- A run that reached the end of the sentence and has no edge pending stores exactly the derivable
edges. -/
theorem Reachable.contains_iff (h : Reachable g words sym words.length run)
    (hagenda : run.agenda = []) {e : Edge} :
    run.chart.contains e = true ↔ Derivable g words sym e := by
  constructor
  · exact h.invariant.derivable
  · exact Derivable.mem_of_closed (h.closed hagenda)

theorem Reachable.mem_edges_iff (h : Reachable g words sym words.length run)
    (hagenda : run.agenda = []) {e : Edge} :
    e ∈ run.chart.edges ↔ Derivable g words sym e := by
  rw [Chart.mem_edges_iff h.invariant.aligned, h.contains_iff hagenda]

/-- A parse whose limit suffices fills its chart with the least closed set of edges, and so does
every other order of dispatching the pending edges. -/
theorem edges_isLeast {limit : Nat} {g : Grammar} {words : List Word} {sym : Symbol}
    (hlimit : parseWithin limit g words sym ≠ .error .limitReached) :
    (∃ run, parseWithin limit g words sym = .ok run ∧
      IsLeast {edges | Closed g words sym edges} {e | e ∈ run.chart.edges}) ∧
    ∀ run, Reachable g words sym words.length run → run.agenda = [] →
      IsLeast {edges | Closed g words sym edges} {e | e ∈ run.chart.edges} := by
  have hleast : ∀ run, Reachable g words sym words.length run → run.agenda = [] →
      IsLeast {edges | Closed g words sym edges} {e | e ∈ run.chart.edges} := by
    intro run h hagenda
    have heq : {e | e ∈ run.chart.edges} = {e | Derivable g words sym e} :=
      Set.ext fun e => h.mem_edges_iff hagenda
    rw [heq]
    exact derivable_isLeast
  obtain ⟨run, hparse, h, hagenda⟩ := exists_of_parseWithin hlimit
  exact ⟨⟨run, hparse, hleast run h hagenda⟩, hleast⟩

/-- A parse that succeeds did not reach its limit. -/
theorem ne_limitReached_of_isOk {α : Type} {result : Except ChartError α}
    (h : result.isOk = true) : result ≠ .error .limitReached := by
  rintro rfl
  cases h

/-- What is read off a parse that succeeds. -/
theorem exists_of_toOption_map {α β : Type} {result : Except ChartError α} {f : α → β} {b : β}
    (h : (result.map f).toOption = some b) : ∃ a, result = .ok a ∧ f a = b := by
  cases result with
  | error cause => cases h
  | ok a => exact ⟨a, rfl, Option.some.inj h⟩

/-- A grammar in which an empty `X` is finished before the edge that expects it inside `A` is
stored. -/
def lateEmpty : Grammar :=
  [.rule "S" ["X", "A"], .rule "A" ["X", "b"], .rule "X" []].foldl Grammar.insert
    (.empty "late empty")

theorem edges_isLeast_lateEmpty :
    parseWithin 8 lateEmpty ["b"] "S" ≠ .error .limitReached ∧
      ∃ run, parseWithin 8 lateEmpty ["b"] "S" = .ok run ∧
        IsLeast {edges | Closed lateEmpty ["b"] "S" edges} {e | e ∈ run.chart.edges} := by
  have hlimit : parseWithin 8 lateEmpty ["b"] "S" ≠ .error .limitReached :=
    ne_limitReached_of_isOk (by decide +kernel)
  exact ⟨hlimit, (edges_isLeast hlimit).1⟩

end NaturalLanguage.Chart.Run

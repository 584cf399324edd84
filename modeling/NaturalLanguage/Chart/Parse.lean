import NaturalLanguage.Chart.Basic
import NaturalLanguage.Grammar.Basic

/-!
# Filling a chart

A chart is filled from left to right. Every new edge waits in an agenda, first in first out, until
it is dispatched once: an edge that still expects a symbol predicts the alternatives of the symbol
and advances over the empty constituents of it that are already finished here; a finished edge
advances all edges that wait for it where it began. When the agenda is empty the slot is closed,
and the next word is scanned into the next slot.

Edges carry their derivations, so a grammar with infinitely many derivations of one span keeps the
agenda busy for ever. `Run.parseWithin` therefore allows a number of dispatches for each slot; a
parse ends when some limit suffices.

* `Run.add`: the only way in which a run stores an edge. New edges are logged in the order of
  storing.
* `Run.closeWithin_of_agenda_nil`: a closed slot needs no dispatch.
* `Run.closeWithin_succ_of_eq_ok`: more dispatches than needed change nothing.
-/

namespace NaturalLanguage

namespace Chart

/-- The state of a parse. -/
structure Run where
  chart : Chart
  /-- The stored edges that were not dispatched yet, oldest first. -/
  agenda : List Edge
  /-- All stored edges, oldest first. -/
  log : Array Edge

namespace Run

/-- A run with an empty chart. -/
def start (words : Nat) : Run := ⟨.empty words, [], #[]⟩

/-- Store an edge that is not in the chart yet. -/
def add (run : Run) (e : Edge) : Except ChartError Run := do
  if run.chart.contains e then
    return run
  let chart ← run.chart.insert e
  return ⟨chart, run.agenda ++ [e], run.log.push e⟩

/-- Store edges one after the other. -/
def addAll (run : Run) (edges : List Edge) : Except ChartError Run := edges.foldlM add run

/-- The edges for all alternatives of the symbol that `e` expects next, where `e` stops. -/
def predictions (g : Grammar) (e : Edge) : List Edge :=
  match e.next? with
  | none => []
  | some sym => (g.alternativesOf sym).map (.predict e.stop sym)

/-- The empty constituents in a slot over which `e` can advance. -/
def emptyParts (slot : Slot) (e : Edge) : List Edge :=
  slot.toList.filter fun part =>
    part.isComplete && part.start == e.stop && some part.head == e.next?

/-- The edges in a slot that wait for a finished edge. -/
def waiting (slot : Slot) (part : Edge) : List Edge :=
  slot.toList.filter fun e => e.next? == some part.head

/-- The edges in a slot that accept a word next, each with the symbol that accepts it. -/
def scannable (g : Grammar) (slot : Slot) (word : Word) : List (Edge × Symbol) :=
  slot.toList.filterMap fun e => (e.next?.filter (g.accepts · word)).map fun sym => (e, sym)

/-- Dispatch an edge that expects a symbol. -/
def predict (g : Grammar) (run : Run) (e : Edge) : Except ChartError Run := do
  let run ← run.addAll (predictions g e)
  -- the predictions may have put an alternative without symbols, which is finished at once, here
  let slot ← run.chart.slot e.stop
  run.addAll (← (emptyParts slot e).mapM e.extend)

/-- Dispatch a finished edge. -/
def complete (run : Run) (e : Edge) : Except ChartError Run := do
  let slot ← run.chart.slot e.start
  -- all waiting edges are advanced before the first result is stored
  run.addAll (← (waiting slot e).mapM (·.extend e))

/-- Dispatch an edge. -/
def dispatch (g : Grammar) (run : Run) (e : Edge) : Except ChartError Run :=
  if e.isComplete then run.complete e else run.predict g e

/-- Advance the edges at `position` that accept `word`. -/
def scan (g : Grammar) (run : Run) (position : Nat) (word : Word) : Except ChartError Run := do
  let slot ← run.chart.slot position
  run.addAll (← (scannable g slot word).mapM fun (e, sym) => e.scan sym word)

/-- Dispatch until the agenda is empty, at most `limit` times. -/
def closeWithin (g : Grammar) : (limit : Nat) → Run → Except ChartError Run
  | limit, run =>
    match run.agenda with
    | [] => .ok run
    | e :: rest =>
      match limit with
      | 0 => .error .limitReached
      | limit + 1 => do
        let run ← ({ run with agenda := rest } : Run).dispatch g e
        closeWithin g limit run

/-- The head of the edge that asks for the start symbol at the beginning. -/
def seedHead : Symbol := "S_"

/-- The edge that asks for `sym` at the beginning. -/
def seed (sym : Symbol) : Edge := .predict 0 seedHead [sym]

/-- Scan a word and close the slot after it. -/
def consumeWithin (g : Grammar) (limit : Nat) (run : Run) (word : Word × Nat) :
    Except ChartError Run := do
  let run ← run.scan g word.2 word.1
  run.closeWithin g limit

/-- Fill a chart for `words`, asking for `sym` at the beginning, with at most `limit` dispatches
for each slot. -/
def parseWithin (limit : Nat) (g : Grammar) (words : List Word) (sym : Symbol) :
    Except ChartError Run := do
  let run ← (start words.length).add (seed sym)
  let run ← run.closeWithin g limit
  words.zipIdx.foldlM (consumeWithin g limit) run

theorem closeWithin_of_agenda_nil {g : Grammar} {limit : Nat} {run : Run} (h : run.agenda = []) :
    run.closeWithin g limit = .ok run := by
  unfold closeWithin; simp [h]

theorem closeWithin_cons {g : Grammar} {limit : Nat} {run : Run} {e : Edge} {rest : List Edge}
    (h : run.agenda = e :: rest) :
    run.closeWithin g (limit + 1) =
      ({ run with agenda := rest } : Run).dispatch g e >>= closeWithin g limit := by
  rw [closeWithin, h]

theorem closeWithin_succ_of_eq_ok {g : Grammar} {limit : Nat} {run closed : Run}
    (h : run.closeWithin g limit = .ok closed) : run.closeWithin g (limit + 1) = .ok closed := by
  induction limit generalizing run with
  | zero =>
    cases ha : run.agenda with
    | nil => rwa [closeWithin_of_agenda_nil ha] at h ⊢
    | cons e rest => unfold closeWithin at h; simp [ha] at h
  | succ limit ih =>
    cases ha : run.agenda with
    | nil => rwa [closeWithin_of_agenda_nil ha] at h ⊢
    | cons e rest =>
      rw [closeWithin_cons ha] at h ⊢
      cases hd : ({ run with agenda := rest } : Run).dispatch g e with
      | error cause => rw [hd] at h; cases h
      | ok next => rw [hd] at h; exact ih h

end Run

/-- The limit of a parse: more dispatches than a machine ever gets through. -/
def dispatchLimit : Nat := Nat.pow 2 62

/-- The run that parses `words` as `sym`. -/
def Run.parse (g : Grammar) (words : List Word) (sym : Symbol) : Except ChartError Run :=
  parseWithin dispatchLimit g words sym

/-- The chart of `words`, asking for `sym` at the beginning. -/
def parse (g : Grammar) (words : List Word) (sym : Symbol) : Except ChartError Chart :=
  (Run.parse g words sym).map (·.chart)

/-- The finished edges of `sym` over all of `words`. -/
def parses (g : Grammar) (words : List Word) (sym : Symbol) : Except ChartError (List Edge) :=
  (parse g words sym).map (·.completeParses sym)

end Chart

end NaturalLanguage

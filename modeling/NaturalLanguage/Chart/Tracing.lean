import NaturalLanguage.Chart.Parse

/-!
# Parses with and without a trace

A parse reports an edge when it stores it if a trace was asked for, and reports nothing otherwise.
The operations here are told which, and what they report is their log. An ordinary run keeps a log
in any case, from which a trace can be read off when the parse has ended.

* `Tracing.add`: the only place where something is reported.
* `Tracing.parseWithin`: a parse with or without a trace.
* `Run.reporting`: what is left of an ordinary run when there is a trace and when there is none.
-/

namespace NaturalLanguage.Chart

namespace Tracing

open Run

variable (trace : Bool)

/-- Store an edge that is not in the chart yet, and report it if there is a trace. -/
def add (run : Run) (e : Edge) : Except ChartError Run := do
  if run.chart.contains e then
    return run
  let chart ← run.chart.insert e
  return ⟨chart, run.agenda ++ [e], if trace then run.log.push e else run.log⟩

/-- Store edges one after the other. -/
def addAll (run : Run) (edges : List Edge) : Except ChartError Run := edges.foldlM (add trace) run

/-- Dispatch an edge that expects a symbol. -/
def predict (g : Grammar) (run : Run) (e : Edge) : Except ChartError Run := do
  let run ← addAll trace run (predictions g e)
  let slot ← run.chart.slot e.stop
  addAll trace run (← (emptyParts slot e).mapM e.extend)

/-- Dispatch a finished edge. -/
def complete (run : Run) (e : Edge) : Except ChartError Run := do
  let slot ← run.chart.slot e.start
  addAll trace run (← (waiting slot e).mapM (·.extend e))

/-- Dispatch an edge. -/
def dispatch (g : Grammar) (run : Run) (e : Edge) : Except ChartError Run :=
  if e.isComplete then complete trace run e else predict trace g run e

/-- Advance the edges at `position` that accept `word`. -/
def scan (g : Grammar) (run : Run) (position : Nat) (word : Word) : Except ChartError Run := do
  let slot ← run.chart.slot position
  addAll trace run (← (scannable g slot word).mapM fun (e, sym) => e.scan sym word)

/-- Dispatch until the agenda is empty, at most `limit` times. -/
def closeWithin (g : Grammar) : (limit : Nat) → Run → Except ChartError Run
  | limit, run =>
    match run.agenda with
    | [] => .ok run
    | e :: rest =>
      match limit with
      | 0 => .error .limitReached
      | limit + 1 => do
        let run ← dispatch trace g { run with agenda := rest } e
        closeWithin g limit run

/-- Scan a word and close the slot after it. -/
def consumeWithin (g : Grammar) (limit : Nat) (run : Run) (word : Word × Nat) :
    Except ChartError Run := do
  let run ← scan trace g run word.2 word.1
  closeWithin trace g limit run

/-- Fill a chart for `words`, asking for `sym` at the beginning, with or without a trace. -/
def parseWithin (limit : Nat) (g : Grammar) (words : List Word) (sym : Symbol) :
    Except ChartError Run := do
  let run ← add trace (start words.length) (seed sym)
  let run ← closeWithin trace g limit run
  words.zipIdx.foldlM (consumeWithin trace g limit) run

end Tracing

/-- The run with its log as the report if there is a trace, and with nothing reported if not. -/
def Run.reporting (run : Run) (trace : Bool) : Run :=
  if trace then run else { run with log := #[] }

end NaturalLanguage.Chart

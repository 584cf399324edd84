import NaturalLanguage.Chart.Parse

/-!
# Reports on a parse

What a parse did is told line by line: the edges in the order in which they were stored, the edges
of every slot of a chart, and the number of finished parses.
-/

namespace NaturalLanguage.Chart

/-- One line for every edge that a run stored. -/
def Run.traceLines (run : Run) : List String :=
  run.log.toList.map fun e => "Chart: added " ++ e.dotted

/-- The title of a slot and a line for each of its edges. -/
def slotLines (slot : Slot × Nat) : List String :=
  ("=== Chart[" ++ toString slot.2 ++ "] ===") :: slot.1.toList.map Edge.dotted

/-- The lines of all slots. -/
def slotsLines (c : Chart) : List String := c.slots.toList.zipIdx.flatMap slotLines

/-- The line that tells the number of parses of `sym`. -/
def countLine (c : Chart) (sym : Symbol) : String :=
  "=== " ++ toString (c.completeParses sym).length ++ " parses for " ++ sym ++ " ==="

end NaturalLanguage.Chart

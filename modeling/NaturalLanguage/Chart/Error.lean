import NaturalLanguage.Symbol

/-!
# Causes for a chart operation to fail
-/

namespace NaturalLanguage

/-- Why an edge can not be advanced or stored, or a chart not be filled. -/
inductive ChartError where
  /-- The symbol is not the one that the edge expects next. -/
  | unexpected (sym : Symbol)
  /-- The edge stops at the last position and the word would go beyond it. -/
  | lastPosition
  /-- The part has not found all of its body. -/
  | unfinished
  /-- The part begins at `start` and not where the edge stops. -/
  | apart (start : Nat)
  /-- The chart has no slot for this position. -/
  | noSlot (position : Nat)
  /-- A slot needs more dispatches than were allowed. -/
  | limitReached
deriving DecidableEq

/-- The text that tells the cause. -/
def ChartError.message : ChartError → String
  | unexpected sym => "the edge does not expect " ++ sym
  | lastPosition => "there is no position after the last"
  | unfinished => "the part is not finished"
  | apart start => "the part begins elsewhere, at " ++ toString start
  | noSlot position => "the chart has no slot " ++ toString position
  | limitReached => "the dispatch limit is reached"

end NaturalLanguage

import NaturalLanguage.CommandLine.Sentences

/-!
# Sessions

Without operands the command for sentences is a session. It asks a line reader for a line, reports
on the sentence in it, and asks again, until the reader says that there are no more lines or that
it was interrupted. A line of blanks is passed over, and nothing is kept from one line to the next.

* `Answer`: what a line reader may answer.
* `session`: the outcome of a session, answer by answer.
-/

namespace NaturalLanguage.CommandLine

/-- What a line reader answers when it is asked for a line. -/
inductive Answer where
  | line (text : List Char)
  | interrupted
  | ended
  | failed (cause : String)

/-- The words of a line. -/
def lineWords (line : List Char) : List Word := Text.fields (String.ofList line)

/-- The outcome of a session that has written `written` and gets the answers of a list, one after
the other; `none` if it still asks for lines after them. -/
def session (report : List Word → Report) : (written : Report) → List Answer → Option Outcome
  | _, [] => none
  | written, .line text :: answers =>
    if lineWords text = [] then session report written answers
    else session report (written ++ report (lineWords text)) answers
  | written, .interrupted :: _ => some (.success written)
  | written, .ended :: _ => some (.success written)
  | written, .failed cause :: _ =>
    let failure := Outcome.failure ("Readline err: " ++ cause)
    some { failure with report := written ++ failure.report }

end NaturalLanguage.CommandLine

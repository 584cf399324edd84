import NaturalLanguage.Text.Quoted

/-!
# Outcomes of commands

A command writes to its two output streams and ends with an exit code. Reports on several inputs
follow one another on both streams.
-/

namespace NaturalLanguage.CommandLine

/-- What a command writes. -/
structure Report where
  /-- The text of the standard output. -/
  output : String
  /-- The text of the error stream. -/
  errors : String

namespace Report

/-- The report that writes nothing. -/
def silent : Report := ⟨"", ""⟩

instance : Append Report := ⟨fun r s => ⟨r.output ++ s.output, r.errors ++ s.errors⟩⟩

/-- Several reports, one after the other. -/
def concat (reports : List Report) : Report := reports.foldl (· ++ ·) silent

end Report

/-- A report and the exit code of the command. -/
structure Outcome where
  exitCode : Nat
  report : Report

namespace Outcome

/-- The outcome of a command that succeeds. -/
def success (report : Report) : Outcome := ⟨0, report⟩

/-- The outcome of a command that fails, with a quoted message. -/
def failure (message : String) : Outcome :=
  ⟨1, ⟨"", "Error: " ++ Text.quote message ++ "\n"⟩⟩

/-- The outcome of a command that stops before its end, after what it wrote until then. -/
def aborted (report : Report) (cause : String) : Outcome := ⟨101, report ++ ⟨"", cause ++ "\n"⟩⟩

/-- The outcome for arguments that are refused. -/
def refused (usage : String) : Outcome := ⟨2, ⟨"", usage ++ "\n"⟩⟩

end Outcome

/-- Lines of text, each with a line end. -/
def unlines (lines : List String) : String := String.join (lines.map (· ++ "\n"))

end NaturalLanguage.CommandLine

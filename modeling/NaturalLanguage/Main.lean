import NaturalLanguage.CommandLine.Ranking
import NaturalLanguage.CommandLine.Sentences

/-!
# The program

The first argument names a command: `sentences`, `sentences-verbose` or `ranking`. Its outcome is
written to the output streams.
-/

open NaturalLanguage CommandLine

/-- Write a report and return the exit code. -/
def finish (outcome : Outcome) : IO UInt32 := do
  IO.eprint outcome.report.errors
  IO.print outcome.report.output
  return outcome.exitCode.toUInt32

/-- Run the command for sentences, with draws that differ from run to run. -/
def runSentences (verbose : Bool) (args : List String) : IO UInt32 := do
  let input ← (← IO.getStdin).readToEnd
  let seed ← IO.rand 0 (UInt64.size - 1)
  finish (sentenceCommand verbose args input (Congruential.mk seed.toUInt64))

/-- Run the command that the first argument names. -/
def main : List String → IO UInt32
  | "sentences" :: args => runSentences false args
  | "sentences-verbose" :: args => runSentences true args
  | "ranking" :: args => finish (rankingCommand args)
  | _ => finish (.refused "usage: (sentences | sentences-verbose | ranking) [ARGUMENT ...]")

import NaturalLanguage.Chart.Report
import NaturalLanguage.Chart.Tracing
import NaturalLanguage.CommandLine.Arguments
import NaturalLanguage.CommandLine.Outcome
import NaturalLanguage.Decimal.Shortest
import NaturalLanguage.Grammar.Stock
import NaturalLanguage.Sampling.Sentence
import NaturalLanguage.Text.Blank
import NaturalLanguage.Text.Typed
import NaturalLanguage.Tree.Brackets
import NaturalLanguage.Tree.Drawing
import NaturalLanguage.Weighted.Best
import NaturalLanguage.Weighted.Stock

/-!
# The command for sentences

The command parses sentences with a stock grammar and shows their trees, either all trees or the
best one of a probabilistic grammar, or it writes random sentences. The sentence is given by the
operands; without operands every line of the input that is not blank is a sentence, and backspaces
in it erase what was typed before.

* `SentenceOptions.read?`: what the arguments ask for.
* `sentenceCommand`: the outcome of the command.
* `inputOutcome_of_not_mem`: without backspaces every line is read as it stands.
-/

namespace NaturalLanguage.CommandLine

/-- What the command for sentences is asked for. -/
structure SentenceOptions where
  /-- The name of the stock grammar. -/
  grammar : String
  start : Symbol
  /-- Whether stored edges are reported. -/
  trace : Bool
  /-- The number of random sentences to write instead of parsing. -/
  random : Option Nat
  /-- Whether to show the best tree of the probabilistic stock grammar. -/
  best : Bool
  operands : List String

namespace SentenceOptions

/-- The options of the command. -/
def kinds : List OptionKind :=
  [.valued "grammar" (some 'g'), .valued "start" (some 's'), .flag "trace",
    .valued "random" none, .flag "cyk"]

/-- Read the arguments. The best tree has a grammar of its own and excludes all other options. -/
def read? (args : List String) : Option SentenceOptions := do
  let given ← readArguments kinds args
  let random ← given.count? "random"
  if given.has "cyk" ∧ given.options.length ≠ 1 then none
  else some {
    grammar := (given.value? "grammar").getD "E0"
    start := (given.value? "start").getD Grammar.defaultStart
    trace := given.has "trace"
    random := random
    best := given.has "cyk"
    operands := given.operands }

end SentenceOptions

/-- The lines that show a finished edge, the parse with the given number. -/
def parseText (number : Nat) (e : Edge) : String :=
  "Parse " ++ toString number ++ ": " ++ e.tree.brackets ++ "\n" ++ e.tree.drawing

/-- The lines that show all parses. -/
def parsesText (parses : List Edge) : String :=
  if parses.isEmpty then "No parse\n"
  else String.join (parses.zipIdx.map fun (e, i) => parseText (i + 1) e)

/-- The report on a sentence: its parses, with the trace of the run if asked for and with the slots
of the chart in a `verbose` command. -/
def chartReport (verbose trace : Bool) (g : Grammar) (start : Symbol) (words : List Word) :
    Report :=
  match Chart.Tracing.parseWithin trace Chart.dispatchLimit g words start with
  | .error cause => ⟨"", cause.message ++ "\n"⟩
  | .ok run =>
    let dumped := if verbose then run.chart.slotsLines ++ [run.chart.countLine start] else []
    ⟨parsesText (run.chart.completeParses start), unlines (run.traceLines ++ dumped)⟩

/-- The report on the best tree of a sentence. -/
def bestReport (g : WeightedGrammar Float) (words : List Word) : Report :=
  let table := BestTable.ofWords g words
  match table.bestTree? g.start with
  | none => ⟨"No parse\n", ""⟩
  | some tree => ⟨"p = " ++ Decimal.plain (table.best g.start) ++ "\n" ++ tree.drawing, ""⟩

/-- The report on a sentence that the options ask for. -/
def sentenceReport (verbose : Bool) (options : SentenceOptions) (g : Grammar) (words : List Word) :
    Report :=
  if options.best then
    match WeightedGrammar.robotSentences with
    | .error cause => ⟨"", cause.message ++ "\n"⟩
    | .ok weighted => bestReport weighted words
  else chartReport verbose options.trace g options.start words

/-- The report on random sentences. -/
def randomReport {σ : Type} [DrawSource σ] (g : Grammar) (start : Symbol) :
    (count : Nat) → StateM σ Report
  | 0 => return .silent
  | count + 1 => do
    let words ← g.randomSentence start Grammar.defaultDepth
    let rest ← randomReport g start count
    return ⟨" ".intercalate words ++ "\n", ""⟩ ++ rest

/-- The lines of the input, without what backspaces erase; `none` for a line in which a backspace
cannot erase. -/
def inputLines (input : String) : List (Option (List Char)) :=
  (Text.pieces (· == '\n') input.toList).map Text.typed?

/-- The sentences of some lines, as words: those that are not blank, up to the first line that
cannot be read. -/
def sentencesOf (lines : List (Option (List Char))) : List (List Word) :=
  (((lines.takeWhile Option.isSome).filterMap id).map fun line =>
    Text.fields (String.ofList line)).filter (· ≠ [])

/-- The outcome of a command for all sentences of an input. A line that cannot be read ends it. -/
def inputOutcome (report : List Word → Report) (input : String) : Outcome :=
  let lines := inputLines input
  let reports := Report.concat ((sentencesOf lines).map report)
  if lines.all Option.isSome then .success reports
  else .aborted reports "a backspace cannot erase a part of a character"

/-- The lines of an input without backspaces are read as they stand. -/
theorem inputLines_of_not_mem {input : String} (h : Text.backspace ∉ input.toList) :
    inputLines input = (Text.pieces (· == '\n') input.toList).map some := by
  refine List.map_congr_left fun line hline => Text.typed?_of_not_mem fun hmem => h ?_
  -- what stands in a piece stands in the text
  have hflat : Text.backspace ∈ (Text.pieces (· == '\n') input.toList).flatten :=
    List.mem_flatten.2 ⟨line, hline, hmem⟩
  rw [Text.flatten_pieces] at hflat
  exact (List.mem_filter.1 hflat).1

theorem inputOutcome_of_not_mem {input : String} (h : Text.backspace ∉ input.toList)
    (report : List Word → Report) :
    inputOutcome report input =
      .success (Report.concat ((((Text.pieces (· == '\n') input.toList).map fun line =>
        Text.fields (String.ofList line)).filter (· ≠ [])).map report)) := by
  have htake : ((Text.pieces (· == '\n') input.toList).map some).takeWhile Option.isSome =
      (Text.pieces (· == '\n') input.toList).map some := by
    induction Text.pieces (· == '\n') input.toList with
    | nil => rfl
    | cons line lines ih => simp [ih]
  simp [inputOutcome, inputLines_of_not_mem h, sentencesOf, htake, List.filterMap_map]

/-- The outcome that the options ask for. -/
def optionsOutcome {σ : Type} [DrawSource σ] (verbose : Bool) (options : SentenceOptions)
    (g : Grammar) (input : String) (source : σ) : Outcome :=
  match options.random with
  | some count => .success (randomReport g options.start count source).1
  | none =>
    if options.operands.isEmpty then inputOutcome (sentenceReport verbose options g) input
    else .success <|
      sentenceReport verbose options g (Text.fields (" ".intercalate options.operands))

/-- How the command is used. -/
def sentenceUsage : String :=
  "usage: [-g GRAMMAR] [-s START] [--trace] [--random N] [--cyk] [WORD ...]"

/-- The outcome of the command for arguments, an input and a source of draws. -/
def sentenceCommand {σ : Type} [DrawSource σ] (verbose : Bool) (args : List String)
    (input : String) (source : σ) : Outcome :=
  match SentenceOptions.read? args with
  | none => .refused sentenceUsage
  | some options =>
    match Grammar.stock? options.grammar with
    | none => .failure ("Unknown grammar: " ++ options.grammar)
    | some g => optionsOutcome verbose options g input source

end NaturalLanguage.CommandLine

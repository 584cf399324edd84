import NaturalLanguage.CommandLine.Session
import NaturalLanguage.Proofs.Text.Pieces

/-!
# Sessions and single runs

A session writes what single runs write on the sentences of its lines, one run after the other. A
single run gets the words of a line as operands, joins them with blanks and cuts the result again,
which gives the words back. The options stand in front of the words; two dashes keep words that look
like options from being read as such.

* `Reads`: the arguments that are read, by what the first of them says.
* `Reads.append`, `Reads.takeWhile_append`: arguments in front of operands.
* `session_line`, `session_lines`: a session on one line and on all lines.
* `session_eq_runs`: sessions and single runs.
-/

namespace NaturalLanguage.CommandLine

/-! ### Arguments in front of operands -/

namespace Arguments

variable {a b : Arguments} {long value : String}

theorem addOption?_eq_some_iff :
    b.addOption? long value = some a ↔
      b.has long = false ∧ { b with options := (long, value) :: b.options } = a := by
  unfold addOption?
  cases b.has long <;> simp

theorem operands_of_addOption? (h : b.addOption? long value = some a) :
    a.operands = b.operands := by
  obtain ⟨-, rfl⟩ := addOption?_eq_some_iff.1 h
  rfl

/-- Whether an option can be added does not depend on the operands. -/
theorem addOption?_operands (h : b.addOption? long value = some a) (words : List String) :
    { b with operands := words }.addOption? long value = some { a with operands := words } := by
  obtain ⟨hnew, rfl⟩ := addOption?_eq_some_iff.1 h
  exact addOption?_eq_some_iff.2 ⟨hnew, rfl⟩

end Arguments

/-- Arguments that are read, with what they say: `Reads kinds awaited args a` if `args` are read as
`a` where `awaited` is an option whose value comes first. -/
inductive Reads (kinds : List OptionKind) : Option String → List String → Arguments → Prop where
  | nil : Reads kinds none [] ⟨[], []⟩
  | dashes (words : List String) : Reads kinds none ("--" :: words) ⟨[], words⟩
  | operand {text : String} {args : List String} {a : Arguments}
      (hread : readArgument kinds text = .operand) (h : Reads kinds none args a) :
      Reads kinds none (text :: args) (a.addOperand text)
  | option {text long value : String} {args : List String} {a b : Arguments}
      (hread : readArgument kinds text = .option long value) (h : Reads kinds none args b)
      (hadd : b.addOption? long value = some a) : Reads kinds none (text :: args) a
  | awaiting {text long : String} {args : List String} {a : Arguments}
      (hread : readArgument kinds text = .awaiting long) (h : Reads kinds (some long) args a) :
      Reads kinds none (text :: args) a
  | value {text long : String} {args : List String} {a b : Arguments}
      (hvalue : isSeparateValue text = true) (h : Reads kinds none args b)
      (hadd : b.addOption? long text = some a) : Reads kinds (some long) (text :: args) a

section Arguments

variable {kinds : List OptionKind} {awaited : Option String} {args : List String} {a : Arguments}
  {words : List String}

/-- Only two dashes end the options. -/
theorem readArgument_eq_endOfOptions {text : String}
    (h : readArgument kinds text = .endOfOptions) : text = "--" := by
  unfold readArgument at h
  split at h
  · next hdashes => exact String.toList_inj.1 hdashes
  · unfold readLong at h
    grind
  · unfold readShort at h
    grind
  · cases h

theorem ne_dashes_of_isSeparateValue {text : String} (h : isSeparateValue text = true) :
    text ≠ "--" := by
  rintro rfl
  revert h
  decide

theorem Reads.readFrom_eq (h : Reads kinds awaited args a) :
    readFrom kinds awaited args = some a := by
  induction h with
  | nil => rfl
  | dashes => rfl
  | operand hread _ ih => simp only [readFrom, hread, ih, Option.map_some]
  | option hread _ hadd ih => simp only [readFrom, hread, ih, Option.bind_some, hadd]
  | awaiting hread _ ih => simp only [readFrom, hread, ih]
  | value hvalue _ hadd ih => simp only [readFrom, hvalue, if_true, ih, Option.bind_some, hadd]

theorem reads_of_readFrom (h : readFrom kinds awaited args = some a) :
    Reads kinds awaited args a := by
  induction args generalizing awaited a with
  | nil =>
    cases awaited with
    | some long => cases h
    | none =>
      obtain rfl : ⟨[], []⟩ = a := Option.some.inj h
      exact .nil
  | cons text args ih =>
    cases awaited with
    | some long =>
      rw [readFrom] at h
      split at h
      · next hvalue =>
        obtain ⟨b, hb, hadd⟩ := Option.bind_eq_some_iff.1 h
        exact .value hvalue (ih hb) hadd
      · cases h
    | none =>
      rw [readFrom] at h
      cases hread : readArgument kinds text with
      | operand =>
        simp only [hread] at h
        obtain ⟨b, hb, rfl⟩ := Option.map_eq_some_iff.1 h
        exact .operand hread (ih hb)
      | option long value =>
        simp only [hread] at h
        obtain ⟨b, hb, hadd⟩ := Option.bind_eq_some_iff.1 h
        exact .option hread (ih hb) hadd
      | awaiting long =>
        simp only [hread] at h
        exact .awaiting hread (ih h)
      | endOfOptions =>
        simp only [hread] at h
        obtain rfl := readArgument_eq_endOfOptions hread
        obtain rfl := Option.some.inj h
        exact .dashes args
      | refused =>
        simp only [hread] at h
        cases h

/-- A word without a dash in front is an operand. -/
theorem readArgument_of_no_dash {word : String} (h : word.toList.head? ≠ some '-') :
    readArgument kinds word = .operand := by
  unfold readArgument
  split <;> simp_all

theorem Reads.of_no_dashes (h : ∀ word ∈ words, word.toList.head? ≠ some '-') :
    Reads kinds none words ⟨[], words⟩ := by
  induction words with
  | nil => exact .nil
  | cons word words ih =>
    obtain ⟨hword, hwords⟩ := List.forall_mem_cons.1 h
    exact .operand (readArgument_of_no_dash hword) (ih hwords)

/-- Words without dashes are operands behind any arguments. -/
theorem Reads.append (h : Reads kinds awaited args a)
    (hwords : ∀ word ∈ words, word.toList.head? ≠ some '-') :
    Reads kinds awaited (args ++ words) { a with operands := a.operands ++ words } := by
  induction h with
  | nil => exact .of_no_dashes hwords
  | dashes operands => exact .dashes (operands ++ words)
  | operand hread _ ih => exact .operand hread ih
  | option hread _ hadd ih =>
    rw [Arguments.operands_of_addOption? hadd]
    exact .option hread ih (Arguments.addOption?_operands hadd _)
  | awaiting hread _ ih => exact .awaiting hread ih
  | value hvalue _ hadd ih =>
    rw [Arguments.operands_of_addOption? hadd]
    exact .value hvalue ih (Arguments.addOption?_operands hadd _)

/-- All words are operands behind two dashes, which follow the options. -/
theorem Reads.takeWhile_append (h : Reads kinds awaited args a) (hnone : a.operands = [])
    (words : List String) :
    Reads kinds awaited (args.takeWhile (· ≠ "--") ++ "--" :: words)
      { a with operands := words } := by
  have hstep : ∀ {text : String} {rest : List String}, text ≠ "--" →
      (text :: rest).takeWhile (· ≠ "--") = text :: rest.takeWhile (· ≠ "--") :=
    fun htext => List.takeWhile_cons_of_pos (by simpa using htext)
  have hread_ne : ∀ {text : String} {reading : Reading}, readArgument kinds text = reading →
      reading ≠ .endOfOptions → text ≠ "--" := by
    rintro text reading rfl hne rfl
    exact hne rfl
  -- what stands in front of the two dashes is kept, and there are no operands among it
  induction h with
  | nil => exact .dashes words
  | dashes operands => exact .dashes words
  | operand => cases hnone
  | option hread _ hadd ih =>
    rw [hstep (hread_ne hread nofun)]
    rw [Arguments.operands_of_addOption? hadd] at hnone
    exact .option hread (ih hnone) (Arguments.addOption?_operands hadd words)
  | awaiting hread _ ih =>
    rw [hstep (hread_ne hread nofun)]
    exact .awaiting hread (ih hnone)
  | value hvalue _ hadd ih =>
    rw [hstep (ne_dashes_of_isSeparateValue hvalue)]
    rw [Arguments.operands_of_addOption? hadd] at hnone
    exact .value hvalue (ih hnone) (Arguments.addOption?_operands hadd words)

end Arguments

namespace SentenceOptions

variable {args : List String} {options : SentenceOptions} {words : List String}

/-- Options are read from the options that were given, and the operands are taken as they are. -/
theorem read?_of_operands {more : List String} {given : Arguments}
    (h : readArguments kinds args = some given)
    (hmore : readArguments kinds more = some { given with operands := words }) :
    read? more = (read? args).map ({ · with operands := words }) := by
  simp only [read?, h, hmore, Option.bind_eq_bind, Option.bind_some]
  -- nothing but the last field looks at the operands
  change (given.count? "random").bind _ = ((given.count? "random").bind _).map _
  cases given.count? "random" with
  | none => rfl
  | some random =>
    simp only [Option.bind_some]
    change (if given.has "cyk" = true ∧ given.options.length ≠ 1 then _ else _) = _
    split <;> rfl

theorem readArguments_of_read? (h : read? args = some options) :
    ∃ given, readArguments kinds args = some given ∧ given.operands = options.operands := by
  obtain ⟨given, hgiven, h⟩ := Option.bind_eq_some_iff.1 h
  obtain ⟨random, -, h⟩ := Option.bind_eq_some_iff.1 h
  refine ⟨given, hgiven, ?_⟩
  split at h
  · cases h
  · rw [← Option.some.inj h]

/-- Words without dashes can follow options. -/
theorem read?_append (h : read? args = some options) (hnone : options.operands = [])
    (hwords : ∀ word ∈ words, word.toList.head? ≠ some '-') :
    read? (args ++ words) = some { options with operands := words } := by
  obtain ⟨given, hgiven, hoperands⟩ := readArguments_of_read? h
  have hreads := ((reads_of_readFrom hgiven).append hwords).readFrom_eq
  rw [hoperands, hnone, List.nil_append] at hreads
  rw [read?_of_operands hgiven hreads, h, Option.map_some]

/-- All words can follow options and two dashes. -/
theorem read?_takeWhile_append (h : read? args = some options) (hnone : options.operands = [])
    (words : List String) :
    read? (args.takeWhile (· ≠ "--") ++ "--" :: words) =
      some { options with operands := words } := by
  obtain ⟨given, hgiven, hoperands⟩ := readArguments_of_read? h
  have hreads := (reads_of_readFrom hgiven).takeWhile_append (hoperands.trans hnone) words
  rw [read?_of_operands hgiven hreads.readFrom_eq, h, Option.map_some]

end SentenceOptions

/-! ### Lines of a session -/

section Lines

variable {report : List Word → Report} {line : List Char} {lines : List (List Char)}

/-- Whether a line is more than blanks. -/
def hasText (line : List Char) : Bool := line.any (!Text.isBlank ·)

theorem lineWords_ne_nil_iff : lineWords line ≠ [] ↔ hasText line = true := by
  rw [Ne, lineWords, Text.fields_eq_nil_iff, Text.Blank, String.toList_ofList, hasText,
    List.any_eq_true]
  simp

/-- A line of blanks is passed over; another line is reported on, after what was written before. -/
theorem session_line (written : Report) (line : List Char) (answers : List Answer) :
    session report written (.line line :: answers) =
      session report (if hasText line then written ++ report (lineWords line) else written)
        answers := by
  rw [session]
  by_cases hline : hasText line = true
  · rw [if_pos hline, if_neg (lineWords_ne_nil_iff.2 hline)]
  · rw [if_neg hline, if_pos (not_not.1 (mt lineWords_ne_nil_iff.1 hline))]

theorem session_lines (written : Report) (lines : List (List Char)) (answers : List Answer) :
    session report written (lines.map .line ++ answers) =
      session report
        ((lines.filter hasText).foldl (fun r line => r ++ report (lineWords line)) written)
        answers := by
  induction lines generalizing written with
  | nil => rfl
  | cons line lines ih =>
    rw [List.map_cons, List.cons_append, session_line, ih, List.filter_cons]
    split <;> rfl

/-- A session of lines writes the reports on those that are not blank. -/
theorem session_lines_ended (lines : List (List Char)) (later : List Answer) :
    session report .silent (lines.map .line ++ .ended :: later) =
      some (.success (Report.concat ((lines.filter hasText).map fun line =>
        report (lineWords line)))) := by
  rw [session_lines, Report.concat, List.foldl_map, session]

/-- The command reports on an input as a session does on its lines. -/
theorem inputOutcome_of_lines {input : String} (h : inputLines input = lines.map some) :
    inputOutcome report input =
      .success (Report.concat ((lines.filter hasText).map fun line =>
        report (lineWords line))) := by
  -- every line was read, so none is cut off, and those that have words are those that have text
  have hsentences : sentencesOf (lines.map some) = (lines.filter hasText).map lineWords := by
    have htake : (lines.map some).takeWhile Option.isSome = lines.map some :=
      List.takeWhile_eq_self_iff.2 (by simp)
    have hlines : (lines.map some).filterMap id = lines := by simp
    have htext : ((· ≠ []) : List Word → Bool) ∘ lineWords = hasText := by
      funext line
      rw [Bool.eq_iff_iff, ← lineWords_ne_nil_iff, Function.comp_apply, decide_eq_true_iff]
    rw [sentencesOf, htake, hlines, List.filter_map]
    exact congrArg (fun p => (lines.filter p).map lineWords) htext
  rw [inputOutcome, h, hsentences, if_pos (by simp), List.map_map]
  rfl

end Lines

/-! ### Single runs -/

section Runs

variable {σ : Type} [DrawSource σ] {verbose : Bool} {args : List String} {options : SentenceOptions}
  {g : Grammar} {words : List Word}

/-- A run on words that are fields reports on these words. -/
theorem sentenceCommand_of_operands (hread : SentenceOptions.read? args = some options)
    (hgrammar : Grammar.stock? options.grammar = some g) (hrandom : options.random = none)
    (hne : options.operands ≠ []) (hfields : ∀ word ∈ options.operands, Text.IsField word)
    (input : String) (source : σ) :
    sentenceCommand verbose args input source =
      .success (sentenceReport verbose options g options.operands) := by
  have hsome : options.operands.isEmpty = false := List.isEmpty_eq_false_iff.2 hne
  simp only [sentenceCommand, hread, hgrammar, optionsOutcome, hrandom, hsome,
    Text.fields_intercalate hfields]
  rfl

/-- A run without words is a run on the lines of the input. -/
theorem sentenceCommand_of_no_operands (hread : SentenceOptions.read? args = some options)
    (hgrammar : Grammar.stock? options.grammar = some g) (hrandom : options.random = none)
    (hnone : options.operands = []) (input : String) (source : σ) :
    sentenceCommand verbose args input source =
      inputOutcome (sentenceReport verbose options g) input := by
  simp only [sentenceCommand, hread, hgrammar, optionsOutcome, hrandom, hnone]
  rfl

/-- A report does not depend on the operands of the options. -/
theorem sentenceReport_operands (operands : List String) :
    sentenceReport verbose { options with operands := operands } g words =
      sentenceReport verbose options g words := rfl

/-- The words of a line are a sentence that a single run gives back. -/
theorem sentenceCommand_lineWords {line : List Char} (hline : hasText line = true)
    (hread : SentenceOptions.read? args = some { options with operands := lineWords line })
    (hgrammar : Grammar.stock? options.grammar = some g) (hrandom : options.random = none)
    (input : String) (source : σ) :
    sentenceCommand verbose args input source =
      .success (sentenceReport verbose options g (lineWords line)) := by
  rw [sentenceCommand_of_operands hread hgrammar hrandom (lineWords_ne_nil_iff.2 hline)
    (fun _ => Text.isField_of_mem_fields), sentenceReport_operands]

/-- A session and single runs agree. For arguments without operands, any words can be put behind
the options, with two dashes between them or, if no word begins with a dash, without. Whichever
arguments single runs give the words with, and whatever their input: a session with the lines of an
input, and the command on an input with these lines, succeeds and writes what the single runs on the
lines with text write, one after the other. -/
theorem session_eq_runs (hread : SentenceOptions.read? args = some options)
    (hgrammar : Grammar.stock? options.grammar = some g) (hrandom : options.random = none)
    (hnone : options.operands = []) :
    (∀ words, SentenceOptions.read? (args.takeWhile (· ≠ "--") ++ "--" :: words) =
      some { options with operands := words }) ∧
    (∀ words : List String, (∀ word ∈ words, word.toList.head? ≠ some '-') →
      SentenceOptions.read? (args ++ words) = some { options with operands := words }) ∧
    ∀ single : List Word → List String,
      (∀ words ≠ [], SentenceOptions.read? (single words) =
        some { options with operands := words }) →
      ∀ (inputs : List Word → String) (sources : List Word → σ) (lines : List (List Char)),
        let run := fun words =>
          sentenceCommand verbose (single words) (inputs words) (sources words)
        let runs := (lines.filter hasText).map fun line => run (lineWords line)
        let all := Outcome.success (Report.concat (runs.map Outcome.report))
        (∀ outcome ∈ runs, outcome.exitCode = 0) ∧
        session (sentenceReport verbose options g) .silent (lines.map .line ++ [.ended]) =
          some all ∧
        ∀ (input : String) (source : σ), inputLines input = lines.map some →
          sentenceCommand verbose args input source = all := by
  refine ⟨SentenceOptions.read?_takeWhile_append hread hnone,
    fun _ => SentenceOptions.read?_append hread hnone, ?_⟩
  intro single hsingle inputs sources lines run runs all
  -- a single run gets the words of a line back, so both sides are made of the same reports
  have hruns : runs = (lines.filter hasText).map fun line =>
      .success (sentenceReport verbose options g (lineWords line)) := by
    refine List.map_congr_left fun line hline => ?_
    have htext := (List.mem_filter.1 hline).2
    exact sentenceCommand_lineWords htext (hsingle _ (lineWords_ne_nil_iff.2 htext)) hgrammar
      hrandom _ _
  have hall : all = .success (Report.concat ((lines.filter hasText).map fun line =>
      sentenceReport verbose options g (lineWords line))) := by
    change Outcome.success (Report.concat (runs.map Outcome.report)) = _
    rw [hruns, List.map_map]
    rfl
  refine ⟨?_, ?_, ?_⟩
  · intro outcome houtcome
    rw [hruns] at houtcome
    obtain ⟨line, -, rfl⟩ := List.mem_map.1 houtcome
    rfl
  · rw [hall, session_lines_ended]
  · intro input source hinput
    rw [hall, sentenceCommand_of_no_operands hread hgrammar hrandom hnone,
      inputOutcome_of_lines hinput]

/-- A session of a sentence, a line of blanks and a sentence that looks like an option. -/
theorem session_eq_runs_happyMan :
    let args := ["--start", "NP", "--trace", "--grammar=E_NP_"]
    let options : SentenceOptions := ⟨"E_NP_", "NP", true, none, false, []⟩
    let run := fun words => sentenceCommand false (args ++ "--" :: words) "" (Cycle.mk #[] 0)
    let both := Outcome.success
      (Report.concat [(run ["happy", "man"]).report, (run ["--trace", "man"]).report])
    (∃ g, Grammar.stock? options.grammar = some g ∧
      session (sentenceReport false options g) .silent
        [.line "happy man".toList, .line " \t".toList, .line "--trace man".toList, .line [],
          .ended] = some both) ∧
      sentenceCommand false args "happy man\n \t\n--trace man\n" (Cycle.mk #[] 0) = both := by
  intro args options run both
  have hread : SentenceOptions.read? args = some options := rfl
  have hstock : (Grammar.stock? options.grammar).isSome = true := by decide +kernel
  obtain ⟨g, hgrammar⟩ := Option.isSome_iff_exists.1 hstock
  obtain ⟨hdashes, -, hruns⟩ :=
    @session_eq_runs Cycle _ false args options g hread hgrammar rfl rfl
  obtain ⟨-, hsession, hcommand⟩ := hruns (fun words => args ++ "--" :: words)
    (fun words _ => hdashes words) (fun _ => "") (fun _ => Cycle.mk #[] 0)
    ["happy man".toList, " \t".toList, "--trace man".toList, []]
  have hlines : inputLines "happy man\n \t\n--trace man\n" =
      ["happy man".toList, " \t".toList, "--trace man".toList, []].map some := by
    rw [inputLines_of_not_mem (by decide)]
    decide
  exact ⟨⟨g, hgrammar, hsession⟩, hcommand _ _ hlines⟩

end Runs

end NaturalLanguage.CommandLine

import NaturalLanguage.CommandLine.Arguments
import NaturalLanguage.CommandLine.Outcome
import NaturalLanguage.Decimal.Fixed
import NaturalLanguage.Links.Network
import NaturalLanguage.Links.Score

/-!
# The command for ranking

The command shows the hub and authority scores of the pages around a page of the network, in a
table with six decimal places.

* `RankingOptions.read?`: what the arguments ask for.
* `rankingCommand`: the outcome of the command.
-/

namespace NaturalLanguage.CommandLine

/-- What the command for ranking is asked for. -/
structure RankingOptions where
  query : String
  rounds : Nat

namespace RankingOptions

/-- The options of the command. -/
def kinds : List OptionKind := [.valued "iterations" (some 'i')]

/-- Read the arguments. There is at most one operand, the page to query for. -/
def read? (args : List String) : Option RankingOptions := do
  let given ← readArguments kinds args
  let rounds ← given.count? "iterations"
  match given.operands with
  | [] => some ⟨"fatih", rounds.getD 100⟩
  | [query] => some ⟨query, rounds.getD 100⟩
  | _ => none

end RankingOptions

/-- Blanks behind a text up to a width. -/
def padRight (width : Nat) (s : String) : String := String.ofList (s.toList.rightpad width ' ')

/-- Blanks before a text up to a width. -/
def padLeft (width : Nat) (s : String) : String := String.ofList (s.toList.leftpad width ' ')

/-- A line of the table. -/
def tableLine (page hub authority : String) : String :=
  padRight 20 page ++ " " ++ padLeft 10 hub ++ " " ++ padLeft 10 authority

/-- The line of a page. -/
def scoreLine (s : PageScore Float) : String :=
  tableLine s.page (Decimal.fixed 6 s.hub) (Decimal.fixed 6 s.authority)

/-- How the command is used. -/
def rankingUsage : String := "usage: [-i ITERATIONS] [PAGE]"

/-- The outcome of the command for arguments. -/
def rankingCommand (args : List String) : Outcome :=
  match RankingOptions.read? args with
  | none => .refused rankingUsage
  | some options =>
    if LinkGraph.network.contains options.query then
      let scores := LinkGraph.network.scores options.query options.rounds
      .success ⟨unlines (tableLine "page" "hub" "authority" :: scores.map scoreLine), ""⟩
    else .failure ("No page named " ++ options.query)

end NaturalLanguage.CommandLine

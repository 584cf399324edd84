import NaturalLanguage.Grammar.Derivation
import NaturalLanguage.Main
import NaturalLanguage.Weighted.Derivation
import NaturalLanguage.Proofs.Chart.Closure
import NaturalLanguage.Proofs.Chart.Storing
import NaturalLanguage.Proofs.Chart.Saturation
import NaturalLanguage.Proofs.Chart.Trees
import NaturalLanguage.Proofs.Chart.Parses
import NaturalLanguage.Proofs.Chart.Termination
import NaturalLanguage.Proofs.Chart.Moments
import NaturalLanguage.Proofs.Chart.WellFormed
import NaturalLanguage.Proofs.Weighted.Underflow
import NaturalLanguage.Proofs.Weighted.Agreement
import NaturalLanguage.Proofs.Chart.Appending
import NaturalLanguage.Proofs.Chart.ValidPrefix
import NaturalLanguage.Proofs.Grammar.Expansion
import NaturalLanguage.Proofs.Sampling.Heights
import NaturalLanguage.Proofs.Sampling.Sentence
import NaturalLanguage.Proofs.Chart.EntryOrder
import NaturalLanguage.Grammar.Builder
import NaturalLanguage.Grammar.Index
import NaturalLanguage.Proofs.Grammar.Building
import NaturalLanguage.Proofs.Grammar.Written
import NaturalLanguage.Proofs.Links.Neighbourhood
import NaturalLanguage.Proofs.Links.PowerIteration
import NaturalLanguage.Proofs.Chart.Calls
import NaturalLanguage.Proofs.Chart.Trace
import NaturalLanguage.Sampling.Passes
import NaturalLanguage.Sampling.Draft
import NaturalLanguage.Proofs.Sampling.Passes
import NaturalLanguage.Proofs.Sampling.Draft
import NaturalLanguage.Proofs.Sampling.Outlines
import NaturalLanguage.Proofs.Sampling.Shallow
import NaturalLanguage.Proofs.Weighted.Filling
import NaturalLanguage.Proofs.Weighted.Spans
import NaturalLanguage.Proofs.Weighted.Building
import NaturalLanguage.Proofs.Weighted.Inclusion
import NaturalLanguage.Weighted.Index
import NaturalLanguage.Proofs.Decimal.Reading
import NaturalLanguage.Proofs.Weighted.Notation
import NaturalLanguage.Proofs.Weighted.Mistakes
import NaturalLanguage.Proofs.Weighted.Written
import NaturalLanguage.Proofs.Weighted.Listed
import NaturalLanguage.Links.Interned
import NaturalLanguage.Proofs.Links.Interning
import NaturalLanguage.Proofs.Links.Locality
import NaturalLanguage.Chart.Hashed
import NaturalLanguage.Proofs.Chart.Insertion
import NaturalLanguage.Chart.Construction
import NaturalLanguage.Proofs.Chart.Constructions
import NaturalLanguage.Proofs.Tree.Brackets
import NaturalLanguage.Proofs.Text.Quoting
import NaturalLanguage.Tree.Indented
import NaturalLanguage.Proofs.Tree.Drawing
import NaturalLanguage.CommandLine.Session
import NaturalLanguage.Proofs.CommandLine.Sessions

import ExtractionBench.Json.Reader
import ExtractionBench.Main
import ExtractionBench.Numeric.Exact
import ExtractionBench.Proofs.Exact
import ExtractionBench.Proofs.FairShare.ProcessorTime
import ExtractionBench.Proofs.FairShare.Replay
import ExtractionBench.Proofs.FairShare.Horizon
import ExtractionBench.Proofs.FairShare.Accepted
import ExtractionBench.Proofs.FairShare.Completion
import ExtractionBench.Proofs.FairShare.Load
import ExtractionBench.Proofs.Ascending
import ExtractionBench.Proofs.Measurement.Index
import ExtractionBench.Proofs.Comparison.Steps
import ExtractionBench.Proofs.Measurement.Coverage
import ExtractionBench.Proofs.Comparison.AllPairs
import ExtractionBench.Proofs.Comparison.Reversal
import ExtractionBench.Proofs.Json.Decoding
import ExtractionBench.Proofs.EGraph.Decoding
import ExtractionBench.Proofs.EGraph.Legacy
import ExtractionBench.Proofs.Text.Bytes
import ExtractionBench.Proofs.Json.Strings
import ExtractionBench.Proofs.Json.Numbers
import ExtractionBench.Proofs.Json.Printed
import ExtractionBench.Proofs.Numeric.Whole
import ExtractionBench.Proofs.Decimal.Whole
import ExtractionBench.Proofs.Json.WholeNumbers
import ExtractionBench.Proofs.EGraph.Text
import ExtractionBench.Proofs.Numeric.Order
import ExtractionBench.Proofs.FairShare.Curves
import ExtractionBench.Proofs.Measurement.Loading
import ExtractionBench.Proofs.FairShare.Saving
import ExtractionBench.Proofs.FairShare.Ratios
import ExtractionBench.Proofs.Files.PathOrder
import ExtractionBench.Proofs.Measurement.Grouping
import ExtractionBench.Proofs.Report.Repetition
import ExtractionBench.Proofs.Text.Columns
import ExtractionBench.Proofs.Measurement.Table
import ExtractionBench.Proofs.Measurement.Policies
import ExtractionBench.Proofs.EGraph.NodeIds
import ExtractionBench.Proofs.Comparison.Dependence
import ExtractionBench.Proofs.FairShare.Refusals
import ExtractionBench.Proofs.FairShare.Dependence
import ExtractionBench.Proofs.Text.Pieces
import ExtractionBench.Proofs.Text.Replace
import ExtractionBench.Proofs.Files.Directory
import ExtractionBench.Proofs.Text.Collapse
import ExtractionBench.Proofs.EGraph.OutputName
import ExtractionBench.Proofs.EGraph.OutputPlace
import ExtractionBench.Proofs.Report.Directories
import ExtractionBench.Proofs.Files.Written
import ExtractionBench.Proofs.CommandLine.Conversions
import ExtractionBench.Proofs.Json.Extension
import ExtractionBench.Proofs.Json.Tokens
import ExtractionBench.Proofs.Json.Skimming
import ExtractionBench.Proofs.Json.Numerals
import ExtractionBench.Proofs.Json.Grammar
import ExtractionBench.Proofs.Measurement.Stored
import ExtractionBench.Proofs.Measurement.Truncation
import ExtractionBench.Proofs.Measurement.Members
import ExtractionBench.Proofs.Statistics.Interpolation
import ExtractionBench.Proofs.FairShare.Unsorted
import ExtractionBench.Proofs.Comparison.Precedence
import ExtractionBench.Proofs.Benchset.Tables
import ExtractionBench.Proofs.Comparison.Matching
import ExtractionBench.Proofs.Benchset.Range
import ExtractionBench.Proofs.Statistics.Cuts
import ExtractionBench.Proofs.Statistics.Consistency
import ExtractionBench.Proofs.Statistics.Range
import ExtractionBench.Proofs.Comparison.Mismatches
import ExtractionBench.Proofs.Text.Lines
import ExtractionBench.Proofs.EGraph.Joined
import ExtractionBench.Proofs.EGraph.Names
import ExtractionBench.Proofs.Measurement.Defects
import ExtractionBench.Proofs.Decimal.Fixed
import ExtractionBench.Proofs.Benchset.Alignment
import ExtractionBench.Proofs.Benchset.Ratios
import ExtractionBench.Proofs.Files.Spelling
import ExtractionBench.Proofs.Benchset.Counts
import ExtractionBench.Proofs.Report.Charts
import ExtractionBench.Proofs.Chart.Bars
import ExtractionBench.Proofs.Chart.Axes
import ExtractionBench.Proofs.Statistics.Words
import ExtractionBench.Proofs.Measurement.Places

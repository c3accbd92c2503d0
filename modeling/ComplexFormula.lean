import ComplexFormula.Binary64.Basic
import ComplexFormula.Binary64.Root
import ComplexFormula.CommandLine.Options
import ComplexFormula.CommandLine.Report
import ComplexFormula.CommandLine.Request
import ComplexFormula.CommandLine.Run
import ComplexFormula.Compilation
import ComplexFormula.Complex.Basic
import ComplexFormula.Complex.Elementary
import ComplexFormula.Complex.Hyperbolic
import ComplexFormula.Complex.Inverse
import ComplexFormula.Complex.Power
import ComplexFormula.Complex.Printing
import ComplexFormula.Complex.Reading
import ComplexFormula.Datum
import ComplexFormula.Decimal.Layout
import ComplexFormula.Decimal.Numeral
import ComplexFormula.Decimal.Shortest
import ComplexFormula.Diagnostic
import ComplexFormula.Evaluation.Evaluate
import ComplexFormula.Evaluation.Fold
import ComplexFormula.Evaluation.Host
import ComplexFormula.Evaluation.Pass
import ComplexFormula.Fault
import ComplexFormula.Formula.Basic
import ComplexFormula.Formula.Printing
import ComplexFormula.Formula.Walk
import ComplexFormula.Main
import ComplexFormula.Parsing.Fault
import ComplexFormula.Parsing.Grammar
import ComplexFormula.Parsing.Reader
import ComplexFormula.Primitive
import ComplexFormula.Proofs.CommandLine.Evaluation
import ComplexFormula.Proofs.Compilation.Handles
import ComplexFormula.Proofs.Compilation.Histories
import ComplexFormula.Proofs.Compilation.Interpretation
import ComplexFormula.Proofs.Evaluation.Closed
import ComplexFormula.Proofs.Evaluation.Course
import ComplexFormula.Proofs.Evaluation.Effects
import ComplexFormula.Proofs.Evaluation.FoldedCourse
import ComplexFormula.Proofs.Evaluation.Folding
import ComplexFormula.Proofs.Evaluation.NormalForms
import ComplexFormula.Proofs.Evaluation.Parts
import ComplexFormula.Proofs.Evaluation.Primitives
import ComplexFormula.Proofs.Evaluation.Recursion
import ComplexFormula.Proofs.Evaluation.Sharing
import ComplexFormula.Proofs.Evaluation.Stack
import ComplexFormula.Proofs.Evaluation.Trace
import ComplexFormula.Proofs.Evaluation.Watching
import ComplexFormula.Proofs.Parsing.Acceptance
import ComplexFormula.Proofs.Parsing.Bindings
import ComplexFormula.Proofs.Parsing.Boundary
import ComplexFormula.Proofs.Parsing.Bounds
import ComplexFormula.Proofs.Parsing.Completeness
import ComplexFormula.Proofs.Parsing.Composition
import ComplexFormula.Proofs.Parsing.Cut
import ComplexFormula.Proofs.Parsing.Halting
import ComplexFormula.Proofs.Parsing.Lockstep
import ComplexFormula.Proofs.Parsing.Machine
import ComplexFormula.Proofs.Parsing.Nodes
import ComplexFormula.Proofs.Parsing.Origins
import ComplexFormula.Proofs.Parsing.Places
import ComplexFormula.Proofs.Parsing.Snippets
import ComplexFormula.Proofs.Parsing.Soundness
import ComplexFormula.Proofs.Parsing.Steps
import ComplexFormula.Proofs.Parsing.Stuck
import ComplexFormula.Proofs.Parsing.Threshold
import ComplexFormula.Proofs.Parsing.Unread
import ComplexFormula.Proofs.Parsing.Verdict
import ComplexFormula.Proofs.Parsing.Viability
import ComplexFormula.Proofs.Printing.Arguments
import ComplexFormula.Proofs.Printing.Labels
import ComplexFormula.Proofs.Printing.Letters
import ComplexFormula.Proofs.Printing.Numbers
import ComplexFormula.Proofs.Printing.Outlines
import ComplexFormula.Proofs.Printing.Rereading
import ComplexFormula.Proofs.Scanning.Blanks
import ComplexFormula.Proofs.Scanning.Concatenation
import ComplexFormula.Proofs.Scanning.Segmentation
import ComplexFormula.Proofs.Settings.Loading
import ComplexFormula.Proofs.Symbols.Search
import ComplexFormula.Rounding
import ComplexFormula.Scalar
import ComplexFormula.Session
import ComplexFormula.Settings.Basic
import ComplexFormula.Settings.Field
import ComplexFormula.Settings.IntegerText
import ComplexFormula.Settings.Load
import ComplexFormula.Symbol.Basic
import ComplexFormula.Symbol.Fields
import ComplexFormula.Symbol.Resolution
import ComplexFormula.Text.Blank
import ComplexFormula.Text.DecimalDigit
import ComplexFormula.Text.Printable
import ComplexFormula.Text.Quoted
import ComplexFormula.Token.Basic
import ComplexFormula.Token.Scanner
import ComplexFormula.Toml.Document
import ComplexFormula.Toml.Number
import ComplexFormula.Toml.Text
import ComplexFormula.Toml.Value

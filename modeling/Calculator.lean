import Calculator.Expr.Printer
import Calculator.Expr.Value
import Calculator.Proofs.Acceptance
import Calculator.Proofs.Spelling
import Calculator.Proofs.PrintedChains
import Calculator.Proofs.Printing
import Calculator.Proofs.EvaluationSpans
import Calculator.Proofs.RoundTrip
import Calculator.Proofs.DepthLimit
import Calculator.Proofs.Exact.Arithmetic
import Calculator.Proofs.Exact.Value
import Calculator.Proofs.Fault
import Calculator.Proofs.NestingBound
import Calculator.Proofs.Floats.Packing
import Calculator.Proofs.Floats.Rounding
import Calculator.Proofs.Floats.Operations
import Calculator.Proofs.Floats.Signs
import Calculator.Proofs.Floats.Nearest
import Calculator.Proofs.Floats.Decimals
import Calculator.Proofs.DecimalNumerals
import Calculator.Proofs.FiniteValues
import Calculator.Proofs.FaultKinds
import Calculator.Proofs.Truncation
import Calculator.Proofs.Excerpt
import Calculator.Proofs.Culprit
import Calculator.Proofs.NestingLimit
import Calculator.Proofs.Alphabet
import Calculator.Proofs.FirstReport
import Calculator.Proofs.Containment
import Calculator.Proofs.PrintedIntegers
import Calculator.Proofs.PrintedFloats
import Calculator.Proofs.FiniteOperands
import Calculator.Proofs.PlainTokens
import Calculator.Proofs.Composition
import Calculator.Proofs.FewestParentheses
import Calculator.Proofs.GroupRecovery
import Calculator.Proofs.Brackets
import Calculator.Proofs.Calls
import Calculator.Proofs.InvalidNodes
import Calculator.Proofs.Rejection
import Calculator.Proofs.LinesAndColumns
import Calculator.Proofs.RenderedDiagnostics
import Calculator.Proofs.Positions
import Calculator.Proofs.Steps
import Calculator.Proofs.SourceOrder
import Calculator.Proofs.Parenthesizing
import Calculator.Expr.Machine
import Calculator.Proofs.Machine.Steps
import Calculator.Proofs.Machine.Returns
import Calculator.Proofs.Machine.Reading
import Calculator.Proofs.Machine.States

import Calculator.Expr.Parser
import Calculator.Scan

/-!
# Analysing a text

An analysis of a text is its tree and the reports on it. There always is a tree: what could not be
read has an invalid node in it. A text with a character that no token starts with gets that report
alone, since the others would be about a text that was cut off.
-/

namespace Calculator

/-- What is known of a text before it is evaluated. -/
structure Analysis where
  tree : Expr
  /-- The reports, in the order in which they were made. -/
  reports : List Report
deriving Repr

namespace Analysis

/-- The number of levels that expressions may nest, unless the caller says otherwise. -/
def defaultNesting : Nat := 256

/-- Analyses what a scan has found. -/
def ofScan (nesting : Nat) (scan : Scan) : Analysis :=
  let parsed := Expr.parse nesting scan.tokens scan.stop
  ⟨parsed.1, (scan.fault.map fun fault => [fault]).getD parsed.2⟩

/-- Analyses a text. -/
def ofText (nesting : Nat) (text : String) : Analysis := ofScan nesting (.ofText text)

/-- Is there anything to report? -/
def hasReports (a : Analysis) : Bool := !a.reports.isEmpty

/-- The reports as they are shown. -/
def diagnostics (a : Analysis) : List Diagnostic := a.reports.map Report.toDiagnostic

end Analysis

end Calculator

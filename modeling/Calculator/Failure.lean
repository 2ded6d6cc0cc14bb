import Calculator.EvalError

/-!
# Failures

A text fails as an expression if there are reports on it, or if its tree has no value. Both failures
show themselves in the same way, as diagnostics about the text.
-/

namespace Calculator

/-- The diagnostics on a text that is no expression. -/
structure SyntaxError where
  diagnostics : List Diagnostic
deriving DecidableEq, Repr

namespace SyntaxError

/-- The error in words: those of the first diagnostic. -/
def message (error : SyntaxError) : String :=
  "syntax error: " ++ (error.diagnostics.head?.map (·.message)).getD "invalid expression"

/-- The lines that show the error. -/
def render (text : String) (error : SyntaxError) : String :=
  Diagnostic.renderAll text error.diagnostics

end SyntaxError

/-- A reason for which a text has no value. -/
inductive Failure where
  | malformed (error : SyntaxError)
  | undefined (error : EvalError)
deriving DecidableEq, Repr

namespace Failure

/-- The failure in words. -/
def message : Failure → String
  | malformed error => error.message
  | undefined error => error.message

/-- The lines that show the failure. -/
def render (text : String) : Failure → String
  | malformed error => error.render text
  | undefined error => Diagnostic.renderAll text [error.toDiagnostic]

end Failure

end Calculator

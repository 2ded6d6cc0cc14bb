import Calculator.Diagnostic

/-!
# Evaluation errors

The reasons for which an expression has no value. All but one are put down to a span: an expression
that is nested too deep is left before any node of it is at fault.
-/

namespace Calculator

/-- A reason for which an expression has no value. -/
inductive EvalError where
  /-- A node of a kind that has no value. -/
  | disallowed (construct : String) (span : Span)
  /-- The text of a number is no number. -/
  | invalidLiteral (text : String) (span : Span)
  | divisionByZero (span : Span)
  /-- The result is beyond the greatest float. -/
  | overflow (span : Span)
  /-- The result is no real number. -/
  | notReal (span : Span)
  /-- The node at `depth` may not be entered. -/
  | tooDeep (depth limit : Nat)
deriving DecidableEq, Repr

namespace EvalError

/-- The error in words. -/
def message : EvalError → String
  | disallowed construct _ => construct ++ " cannot be evaluated"
  | invalidLiteral text _ => "invalid number literal '" ++ text ++ "'"
  | divisionByZero _ => "division by zero"
  | overflow _ => "numeric result out of range"
  | notReal _ => "result is not a real number"
  | tooDeep depth limit =>
    "expression nested too deeply (depth " ++ toString depth ++ ", limit " ++ toString limit ++ ")"

/-- The span of the node at fault. -/
def span? : EvalError → Option Span
  | disallowed _ span | invalidLiteral _ span | divisionByZero span | overflow span
  | notReal span => some span
  | tooDeep .. => none

/-- The error with `f` applied to its span. -/
def mapSpan (f : Span → Span) : EvalError → EvalError
  | disallowed construct span => disallowed construct (f span)
  | invalidLiteral text span => invalidLiteral text (f span)
  | divisionByZero span => divisionByZero (f span)
  | overflow span => overflow (f span)
  | notReal span => notReal (f span)
  | tooDeep depth limit => tooDeep depth limit

/-- The error without its span: two errors are equal up to spans if these are equal. -/
def bare (error : EvalError) : EvalError := error.mapSpan fun _ => .point 0

/-- The error as it is shown; without a span it stands at the start of the text. -/
def toDiagnostic (error : EvalError) : Diagnostic :=
  ⟨error.message, error.span?.getD (.point 0), []⟩

/-- There is one span in an error at most. -/
theorem mapSpan_of_span? {span : Span} {error : EvalError} (h : error.span? = some span)
    (f : Span → Span) : error.mapSpan f = error.mapSpan fun _ => f span := by
  cases error <;> first | rfl | exact congrArg _ (congrArg f (Option.some.inj h))

end EvalError

end Calculator

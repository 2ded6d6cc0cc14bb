import Calculator.Diagnostic
import Calculator.Token

/-!
# Reports on malformed text

A problem is a way in which a text fails to be an expression; a report is a problem and the span
to which it is put down. The wording stands in `Problem.message` alone.
-/

namespace Calculator

/-- A way in which a text fails to be an expression. -/
inductive Problem where
  /-- No token starts with this character. -/
  | unexpectedChar (c : Char)
  /-- There is no token at all. -/
  | emptyExpression
  /-- An operand should start here. -/
  | expectedOperand (found : Token.Kind)
  /-- The operator has no right operand. -/
  | missingRight (op : BinaryOp)
  /-- The sign has no operand. -/
  | missingSigned (sign : Sign)
  /-- The parenthesis at `opened` should be closed here. -/
  | unclosed (opened : Span) (found : Token.Kind)
  /-- The expression is complete, but the text goes on. -/
  | trailing (found : Token.Kind)
  /-- More than `limit` operands stand one inside another. -/
  | tooNested (limit : Nat)
deriving DecidableEq, Repr

namespace Problem

/-- The problem in words. -/
def message : Problem → String
  | unexpectedChar c => "unexpected char '" ++ c.toString ++ "'"
  | emptyExpression => "empty expression"
  | expectedOperand found => "expected expression, found " ++ found.describe
  | missingRight op => "expected expression after '" ++ op.symbol ++ "'"
  | missingSigned sign => "expected expression after unary '" ++ sign.symbol ++ "'"
  | unclosed _ found => "expected ')', found " ++ found.describe
  | trailing found => "unexpected " ++ found.describe ++ " after expression"
  | tooNested limit => "expression nested too deeply (limit " ++ toString limit ++ ")"

/-- Where else to look: an unclosed group points at its opening parenthesis. -/
def labels : Problem → List Label
  | unclosed opened _ => [⟨opened, "this '(' is not closed"⟩]
  | _ => []

end Problem

/-- A problem and the span to which it is put down. -/
structure Report where
  problem : Problem
  span : Span
deriving DecidableEq, Repr

namespace Report

/-- The report as it is shown. -/
def toDiagnostic (report : Report) : Diagnostic :=
  ⟨report.problem.message, report.span, report.problem.labels⟩

end Report

end Calculator

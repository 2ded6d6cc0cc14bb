import Calculator.Operator
import Calculator.Span

/-!
# Tokens

A token is a piece of the text with its kind and its span. The kind `finish` stands for the end
of the text: no piece of text has it, so that a reader can always look at a next token.
-/

namespace Calculator

namespace Token

/-- What a token is. -/
inductive Kind where
  /-- An unsigned decimal literal. -/
  | number
  | plus
  | minus
  | star
  | starStar
  | slash
  | percent
  | caret
  | openParen
  | closeParen
  /-- The end of the text. -/
  | finish
deriving DecidableEq, Repr

namespace Kind

/-- The one spelling of an operator or a parenthesis. -/
def symbol? : Kind → Option String
  | number | finish => none
  | plus => some "+"
  | minus => some "-"
  | star => some "*"
  | starStar => some "**"
  | slash => some "/"
  | percent => some "%"
  | caret => some "^"
  | openParen => some "("
  | closeParen => some ")"

/-- How a report names a token of this kind. -/
def describe (kind : Kind) : String :=
  match kind.symbol? with
  | some symbol => "`" ++ symbol ++ "`"
  | none => if kind = number then "number" else "end of input"

/-- Can an expression start with a token of this kind? -/
def startsExpr : Kind → Bool
  | number | openParen | plus | minus => true
  | _ => false

/-- The sign that a token of this kind is in front of an operand. -/
def sign? : Kind → Option Sign
  | plus => some .plus
  | minus => some .minus
  | _ => none

/-- The operator that a token of this kind is between two operands. -/
def binaryOp? : Kind → Option BinaryOp
  | plus => some .add
  | minus => some .sub
  | star => some .mul
  | slash => some .div
  | percent => some .rem
  | caret => some .caret
  | starStar => some .starStar
  | number | openParen | closeParen | finish => none

/-- The end of the text is no operator. -/
theorem ne_finish_of_binaryOp? {kind : Kind} {op : BinaryOp} (h : kind.binaryOp? = some op) :
    kind ≠ finish := by
  rintro rfl
  nomatch h

/-- The end of the text is no sign. -/
theorem ne_finish_of_sign? {kind : Kind} {sign : Sign} (h : kind.sign? = some sign) :
    kind ≠ finish := by
  rintro rfl
  nomatch h

end Kind

end Token

/-- A piece of the text. -/
structure Token where
  kind : Token.Kind
  /-- The bytes under `span`, as written. -/
  text : String
  span : Span
deriving DecidableEq, Repr

namespace Token

/-- The token that stands for the end of a text of `stop` bytes. -/
def finish (stop : Nat) : Token := ⟨.finish, "", .point stop⟩

end Token

end Calculator

/-!
# Signs, operators and operations

A sign stands before its operand, a binary operator between its two operands. The power operator
has two spellings, so that seven operators denote six operations.

Precedence orders them: sums bind weakest, then products, then powers, and a sign binds tightest of
all, so `-2 ^ 2` is `(-2) ^ 2`. Sums and products group to the left, powers to the right.
-/

namespace Calculator

/-- A sign in front of an operand. -/
inductive Sign where
  | plus
  | minus
deriving DecidableEq, Repr

namespace Sign

/-- The sign as written. -/
def symbol : Sign → String
  | plus => "+"
  | minus => "-"

/-- A sign binds tighter than every binary operator. -/
def precedence : Nat := 4

/-- The strength with which a sign holds its operand. No operator is as strong, so the operand
holds none. -/
def binding : Nat := 2 * precedence

end Sign

/-- The operations on two numbers. -/
inductive Operation where
  | add
  | sub
  | mul
  | div
  | mod
  | pow
deriving DecidableEq, Repr

/-- A binary operator as written. -/
inductive BinaryOp where
  | add
  | sub
  | mul
  | div
  | rem
  | caret
  | starStar
deriving DecidableEq, Repr

namespace BinaryOp

/-- The operator as written. -/
def symbol : BinaryOp → String
  | add => "+"
  | sub => "-"
  | mul => "*"
  | div => "/"
  | rem => "%"
  | caret => "^"
  | starStar => "**"

/-- What the operator computes; `^` and `**` are the same operation. -/
def operation : BinaryOp → Operation
  | add => .add
  | sub => .sub
  | mul => .mul
  | div => .div
  | rem => .mod
  | caret | starStar => .pow

/-- One for sums, two for products, three for powers. -/
def precedence : BinaryOp → Nat
  | add | sub => 1
  | mul | div | rem => 2
  | caret | starStar => 3

/-- Only powers group to the right: `2 ^ 3 ^ 2` is `2 ^ (3 ^ 2)`. -/
def isRightAssoc : BinaryOp → Bool
  | caret | starStar => true
  | _ => false

/-- The strength with which the operator holds the operand on its left. The weaker side is the one
on which equal operators chain. -/
def leftBinding (op : BinaryOp) : Nat := 2 * op.precedence + op.isRightAssoc.toNat

/-- The strength with which the operator holds the operand on its right. -/
def rightBinding (op : BinaryOp) : Nat := 2 * op.precedence + (!op.isRightAssoc).toNat

/-- The least precedence that a left operand has without parentheses. -/
def leftLevel (op : BinaryOp) : Nat := op.precedence + op.isRightAssoc.toNat

/-- The least precedence that a right operand has without parentheses. -/
def rightLevel (op : BinaryOp) : Nat := op.precedence + (!op.isRightAssoc).toNat

/-- Every operator binds weaker than a sign. -/
theorem precedence_lt_sign (op : BinaryOp) : op.precedence < Sign.precedence := by
  cases op <;> decide

/-- No operator may stand inside the operand of a sign. -/
theorem leftBinding_lt_sign (op : BinaryOp) : op.leftBinding < Sign.binding := by
  cases op <;> decide

/-- An operator `a` may stand unparenthesized in the right operand of `b` exactly when its
precedence is at least `b.rightLevel`: binding strengths and printed levels agree. -/
theorem rightBinding_le_leftBinding_iff (a b : BinaryOp) :
    b.rightBinding ≤ a.leftBinding ↔ b.rightLevel ≤ a.precedence := by
  cases a <;> cases b <;> decide

end BinaryOp

end Calculator

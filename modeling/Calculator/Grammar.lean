import Calculator.Expr.Basic
import Calculator.Token

/-!
# The grammar of expressions

Which token lists are expressions, and which tree each of them has, said without a parser.

* expression: a term, or an expression, `+` or `-`, and a term
* term: a factor, or a term, `*`, `/` or `%`, and a factor
* factor: a signed operand, or a signed operand, `^` or `**`, and a factor
* signed operand: a sign and a signed operand, or a primary
* primary: a number, or an expression in parentheses

A derivation also counts the levels that a reading of the tokens needs: a sign, a group and a right
operand each stand one level above what they hold, and a left operand costs nothing.
-/

namespace Calculator.Grammar

/-- The kinds of phrases, from the weakest binding to the strongest. -/
inductive Phrase where
  | expression
  | term
  | factor
  | signed
  | primary
deriving DecidableEq, Repr

/-- The phrase that an operator makes of its two operands. -/
def Phrase.ofOp : BinaryOp → Phrase
  | .add | .sub => expression
  | .mul | .div | .rem => term
  | .caret | .starStar => factor

/-- The phrase on the left of an operator: what it makes, if it groups to the left. -/
def Phrase.leftOf : BinaryOp → Phrase
  | .add | .sub => expression
  | .mul | .div | .rem => term
  | .caret | .starStar => signed

/-- The phrase on the right of an operator: what it makes, if it groups to the right. -/
def Phrase.rightOf : BinaryOp → Phrase
  | .add | .sub => term
  | .mul | .div | .rem => factor
  | .caret | .starStar => factor

/-- The tokens are a phrase of the kind, with this tree up to spans, and need so many levels. -/
inductive Derives : Phrase → List Token → Expr → Nat → Prop where
  | number {token : Token} (kind : token.kind = .number) :
    Derives .primary [token] (.number token.text (.point 0)) 1
  | group {opened closed : Token} {tokens : List Token} {e : Expr} {need : Nat}
    (open_kind : opened.kind = .openParen) (close_kind : closed.kind = .closeParen)
    (inner : Derives .expression tokens e need) :
    Derives .primary (opened :: (tokens ++ [closed])) e (need + 1)
  | signed {token : Token} {tokens : List Token} {sign : Sign} {e : Expr} {need : Nat}
    (kind : token.kind.sign? = some sign) (operand : Derives .signed tokens e need) :
    Derives .signed (token :: tokens) (.signed sign e (.point 0)) (need + 1)
  | binary {token : Token} {lefts rights : List Token} {op : BinaryOp} {left right : Expr}
    {leftNeed rightNeed : Nat} (kind : token.kind.binaryOp? = some op)
    (left_phrase : Derives (.leftOf op) lefts left leftNeed)
    (right_phrase : Derives (.rightOf op) rights right rightNeed) :
    Derives (.ofOp op) (lefts ++ token :: rights)
      (.binary op (.point 0) left right (.point 0)) (max leftNeed (rightNeed + 1))
  | ofPrimary {tokens : List Token} {e : Expr} {need : Nat} (h : Derives .primary tokens e need) :
    Derives .signed tokens e need
  | ofSigned {tokens : List Token} {e : Expr} {need : Nat} (h : Derives .signed tokens e need) :
    Derives .factor tokens e need
  | ofFactor {tokens : List Token} {e : Expr} {need : Nat} (h : Derives .factor tokens e need) :
    Derives .term tokens e need
  | ofTerm {tokens : List Token} {e : Expr} {need : Nat} (h : Derives .term tokens e need) :
    Derives .expression tokens e need

/-- A phrase needs a level. -/
theorem Derives.need_pos {phrase : Phrase} {tokens : List Token} {e : Expr} {need : Nat}
    (h : Derives phrase tokens e need) : 0 < need := by
  induction h with
  | number => exact Nat.one_pos
  | group | signed => exact Nat.succ_pos _
  | binary _ _ _ ihl _ => exact Nat.lt_of_lt_of_le ihl (Nat.le_max_left ..)
  | ofPrimary _ ih | ofSigned _ ih | ofFactor _ ih | ofTerm _ ih => exact ih

end Calculator.Grammar

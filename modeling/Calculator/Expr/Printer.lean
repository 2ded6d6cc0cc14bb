import Calculator.Expr.Spine

/-!
# Printing a tree

`Expr.print` writes a tree with parentheses only where its shape needs them, and one space on each
side of a binary operator. An operand is put in parentheses when it binds weaker than its place
asks: `BinaryOp.leftLevel` and `BinaryOp.rightLevel` are what an operator asks of its operands, and
the operand of a sign has to bind as tight as a sign.

A chain is written along its left spine, so that a long one takes a loop: first all parentheses that
open in front of it, then its leftmost operand, and then one operator after the other, each with its
right operand and the parenthesis that closes behind it.

* `Expr.write`: the text in a loop over left spines.
* `Expr.printAt`: the same text by plain recursion.
-/

namespace Calculator.Expr

/-- What is written for an invalid part. -/
def invalidText : List Char := "<error>".toList

/-! ## By plain recursion -/

/-- The text, in parentheses if `wrap` holds. -/
def parenthesizeIf (wrap : Bool) (text : List Char) : List Char :=
  if wrap then '(' :: (text ++ [')']) else text

/-- The text of a tree at a place that asks for precedence `level`. -/
def printAt (level : Nat) : Expr → List Char
  | number text _ => text.toList
  | invalid _ => invalidText
  | signed sign operand _ =>
    parenthesizeIf (Sign.precedence < level)
      (sign.symbol.toList ++ operand.printAt Sign.precedence)
  | binary op _ left right _ =>
    parenthesizeIf (op.precedence < level)
      (left.printAt op.leftLevel ++ ' ' :: op.symbol.toList ++ ' ' :: right.printAt op.rightLevel)

/-! ## Along left spines -/

/-- Which nodes of a spine stand in parentheses, innermost first: each has to reach what the next
one asks of its left operand, and the outermost one `level`. -/
def wraps (level : Nat) (links : List Link) : List Bool :=
  links.zipWith (fun link required => decide (link.op.precedence < required))
    (links.tail.map (·.op.leftLevel) ++ [level])

/-- The precedence that is asked of the leftmost operand of a spine. -/
def innermostLevel (level : Nat) (links : List Link) : Nat :=
  (links.head?.map (·.op.leftLevel)).getD level

/-- A closing parenthesis behind `out` if `wrap` holds. -/
def closeIf (wrap : Bool) (out : String) : String :=
  if wrap then out.push ')' else out

/-- The text of a tree at a place that asks for precedence `level`, behind `out`. -/
def write (level : Nat) (out : String) (e : Expr) : String :=
  match e with
  | number text _ => out ++ text
  | invalid _ => out ++ String.ofList invalidText
  | signed sign operand _ =>
    let wrap : Bool := Sign.precedence < level
    closeIf wrap (operand.write Sign.precedence (out.pushn '(' wrap.toNat ++ sign.symbol))
  | binary op opSpan left right span =>
    let links := (binary op opSpan left right span).leftSpine.2
    let wraps := wraps level links
    let start := (binary op opSpan left right span).leftSpine.1.write (innermostLevel level links)
      (out.pushn '(' (wraps.count true))
    (links.attach.zip wraps).foldl (fun out (link, wrap) =>
      closeIf wrap (link.1.right.write link.1.op.rightLevel
        (out ++ " " ++ link.1.op.symbol ++ " "))) start
termination_by e
decreasing_by
  · decreasing_tactic
  · exact sizeOf_leftSpine_fst_lt ..
  · exact sizeOf_right_lt_of_mem link.2

/-- The text of a tree, with the fewest parentheses that keep its shape. -/
def print (e : Expr) : String := e.write 0 ""

end Calculator.Expr

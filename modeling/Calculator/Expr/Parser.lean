import Calculator.Expr.Basic
import Calculator.Expr.Cursor

/-!
# Parsing tokens into a tree

The grammar of expressions:

* expression: one or more terms with `+` or `-` between them, grouped to the left
* term: one or more factors with `*`, `/` or `%` between them, grouped to the left
* factor: an operand, alone or followed by `^` or `**` and a factor
* operand: a number, a sign and an operand, or an expression in parentheses

It is read by binding strengths: `climb` takes operators as long as they hold their left operand
with a given strength or more. The reading never fails. A part that is no expression becomes an
invalid node and is reported, and the reading goes on behind it.

An operand of a sign, a right operand and an expression in parentheses stand one level deeper than
the operator or parenthesis that asks for them. `parseAt` counts the levels left, so that the
reading of an inner expression is a value of type `Nested` that the outer one is given.
-/

namespace Calculator.Expr

/-- A way to read the expressions one level deeper: from the least strength that an operator may
have and a cursor to a tree and the cursor behind it, which has no more tokens to read. -/
structure Nested where
  read : Nat → Cursor → Expr × Cursor
  length_read_le : ∀ least c, (read least c).2.rest.length ≤ c.rest.length

namespace Nested

variable (inner : Nested)

/-- Reads the operand of the sign at the cursor. -/
def readSigned (sign : Sign) (c : Cursor) : Expr × Cursor :=
  let token := c.peek
  let after := c.advance
  if after.peek.kind.startsExpr then
    let operand := inner.read Sign.binding after
    (signed sign operand.1 (token.span.cover operand.1.span), operand.2)
  else
    let missing := invalid (.point token.span.stop)
    (signed sign missing (token.span.cover missing.span),
      after.report (.missingSigned sign) token.span)

/-- Reads the group that opens at the cursor. Its node is the one inside, with a span that takes in
all that was read. If the group is not closed where the expression ends, this is reported and the
tokens up to its closing parenthesis are passed over. -/
def readGroup (c : Cursor) : Expr × Cursor :=
  let opened := c.peek.span
  let content := inner.read 0 c.advance
  let next := content.2.peek
  let after :=
    if next.kind = .closeParen then content.2.advance
    else (content.2.report (.unclosed opened next.kind) next.span).skipPastClose
  (content.1.withSpan ⟨opened.start, after.lastStop⟩, after)

/-- Reads one operand. A token that starts none is reported and left where it is. -/
def readOperand (c : Cursor) : Expr × Cursor :=
  let token := c.peek
  match token.kind with
  | .number => (number token.text token.span, c.advance)
  | .plus => inner.readSigned .plus c
  | .minus => inner.readSigned .minus c
  | .openParen => inner.readGroup c
  | kind => (invalid token.span, c.report (.expectedOperand kind) token.span)

/-- Reads the right operand of the operator at the cursor. -/
def readRight (op : BinaryOp) (c : Cursor) : Expr × Cursor :=
  let token := c.peek
  let after := c.advance
  if after.peek.kind.startsExpr then inner.read op.rightBinding after
  else (invalid (.point token.span.stop), after.report (.missingRight op) token.span)

theorem length_readSigned_le (sign : Sign) (c : Cursor) :
    (inner.readSigned sign c).2.rest.length ≤ c.rest.length := by
  refine Nat.le_trans ?_ c.rest_length_advance_le
  unfold readSigned
  dsimp only
  split
  · exact inner.length_read_le ..
  · simp

theorem length_readGroup_le (c : Cursor) :
    (inner.readGroup c).2.rest.length ≤ c.rest.length := by
  have h₁ := c.rest_length_advance_le
  have h₂ := inner.length_read_le 0 c.advance
  unfold readGroup
  dsimp only
  split
  · have := (inner.read 0 c.advance).2.rest_length_advance_le
    omega
  · refine Nat.le_trans (Cursor.rest_length_skipPastClose_le _) ?_
    simp only [Cursor.rest_report]
    omega

theorem length_readOperand_le (c : Cursor) :
    (inner.readOperand c).2.rest.length ≤ c.rest.length := by
  unfold readOperand
  dsimp only
  split
  · exact c.rest_length_advance_le
  · exact inner.length_readSigned_le _ c
  · exact inner.length_readSigned_le _ c
  · exact inner.length_readGroup_le c
  · simp

theorem length_readRight_le (op : BinaryOp) (c : Cursor) :
    (inner.readRight op c).2.rest.length ≤ c.advance.rest.length := by
  unfold readRight
  dsimp only
  split
  · exact inner.length_read_le ..
  · simp

theorem length_readRight_lt {op : BinaryOp} {c : Cursor}
    (h : c.peek.kind.binaryOp? = some op) :
    (inner.readRight op c).2.rest.length < c.rest.length :=
  Nat.lt_of_le_of_lt (inner.length_readRight_le op c) <|
    Cursor.rest_length_advance_lt (Token.Kind.ne_finish_of_binaryOp? h)

/-- Takes the operators behind `left` that hold it with strength `least` or more, each with its
right operand. -/
def climb (least : Nat) (left : Expr) (c : Cursor) : Expr × Cursor :=
  match h : c.peek.kind.binaryOp? with
  | none => (left, c)
  | some op =>
    if op.leftBinding < least then (left, c)
    else
      let right := inner.readRight op c
      have := inner.length_readRight_lt h
      climb least (binary op c.peek.span left right.1 (left.span.cover right.1.span)) right.2
termination_by c.rest.length
decreasing_by exact this

theorem length_climb_le (least : Nat) (left : Expr) (c : Cursor) :
    (inner.climb least left c).2.rest.length ≤ c.rest.length := by
  fun_induction inner.climb least left c with
  | case1 => exact Nat.le_refl _
  | case2 => exact Nat.le_refl _
  | case3 left c op h hp right hlt ih => exact Nat.le_of_lt (Nat.lt_of_le_of_lt ih hlt)

/-- Reads an operand and the operators behind it that hold it with strength `least` or more. -/
def readExpr (least : Nat) (c : Cursor) : Expr × Cursor :=
  let operand := inner.readOperand c
  inner.climb least operand.1 operand.2

theorem length_readExpr_le (least : Nat) (c : Cursor) :
    (inner.readExpr least c).2.rest.length ≤ c.rest.length :=
  Nat.le_trans (inner.length_climb_le ..) (inner.length_readOperand_le c)

section Equations

variable {c : Cursor} {least : Nat} {op : BinaryOp} {sign : Sign} (left : Expr)

theorem climb_of_none (h : c.peek.kind.binaryOp? = none) :
    inner.climb least left c = (left, c) := by
  rw [climb]
  split
  · rfl
  · next hop => rw [h] at hop; nomatch hop

theorem climb_of_lt (h : c.peek.kind.binaryOp? = some op) (hlt : op.leftBinding < least) :
    inner.climb least left c = (left, c) := by
  rw [climb]
  split
  · rfl
  · next op' hop =>
    obtain rfl : op = op' := Option.some.inj (h.symm.trans hop)
    rw [if_pos hlt]

theorem climb_of_le (h : c.peek.kind.binaryOp? = some op) (hle : least ≤ op.leftBinding) :
    inner.climb least left c = inner.climb least
      (binary op c.peek.span left (inner.readRight op c).1
        (left.span.cover (inner.readRight op c).1.span)) (inner.readRight op c).2 := by
  rw [climb]
  split
  · next hop => rw [h] at hop; nomatch hop
  · next op' hop =>
    obtain rfl : op = op' := Option.some.inj (h.symm.trans hop)
    rw [if_neg (Nat.not_lt.mpr hle)]

theorem readRight_of_starts (h : c.advance.peek.kind.startsExpr = true) :
    inner.readRight op c = inner.read op.rightBinding c.advance := by
  unfold readRight
  dsimp only
  rw [if_pos h]

theorem readRight_of_not_starts (h : c.advance.peek.kind.startsExpr = false) :
    inner.readRight op c = (invalid (.point c.peek.span.stop),
      c.advance.report (.missingRight op) c.peek.span) := by
  unfold readRight
  dsimp only
  rw [if_neg (by rw [h]; nofun)]

theorem readSigned_of_starts (h : c.advance.peek.kind.startsExpr = true) :
    inner.readSigned sign c =
      (signed sign (inner.read Sign.binding c.advance).1
        (c.peek.span.cover (inner.read Sign.binding c.advance).1.span),
        (inner.read Sign.binding c.advance).2) := by
  unfold readSigned
  dsimp only
  rw [if_pos h]

theorem readSigned_of_not_starts (h : c.advance.peek.kind.startsExpr = false) :
    inner.readSigned sign c =
      (signed sign (invalid (.point c.peek.span.stop))
        (c.peek.span.cover (.point c.peek.span.stop)),
        c.advance.report (.missingSigned sign) c.peek.span) := by
  unfold readSigned
  dsimp only
  rw [if_neg (by rw [h]; nofun)]
  rfl

theorem readGroup_of_closed (h : (inner.read 0 c.advance).2.peek.kind = .closeParen) :
    inner.readGroup c =
      ((inner.read 0 c.advance).1.withSpan
        ⟨c.peek.span.start, (inner.read 0 c.advance).2.advance.lastStop⟩,
        (inner.read 0 c.advance).2.advance) := by
  unfold readGroup
  dsimp only
  rw [if_pos h]

theorem readGroup_of_not_closed (h : (inner.read 0 c.advance).2.peek.kind ≠ .closeParen) :
    (inner.readGroup c).2 = ((inner.read 0 c.advance).2.report
      (.unclosed c.peek.span (inner.read 0 c.advance).2.peek.kind)
        (inner.read 0 c.advance).2.peek.span).skipPastClose := by
  unfold readGroup
  dsimp only
  rw [if_neg h]

theorem readOperand_of_number (h : c.peek.kind = .number) :
    inner.readOperand c = (number c.peek.text c.peek.span, c.advance) := by
  unfold readOperand
  simp only [h]

theorem readOperand_of_sign (h : c.peek.kind.sign? = some sign) :
    inner.readOperand c = inner.readSigned sign c := by
  unfold readOperand
  cases hk : c.peek.kind <;> rw [hk] at h <;> cases h <;> simp only [hk]

theorem readOperand_of_openParen (h : c.peek.kind = .openParen) :
    inner.readOperand c = inner.readGroup c := by
  unfold readOperand
  simp only [h]

theorem readOperand_of_not_starts (h : c.peek.kind.startsExpr = false) :
    inner.readOperand c =
      (invalid c.peek.span, c.report (.expectedOperand c.peek.kind) c.peek.span) := by
  unfold readOperand
  cases hk : c.peek.kind <;> rw [hk] at h <;> cases h <;> simp only [hk]

/-- The four ways in which an operand is read, by the token at the cursor. -/
theorem readOperand_cases {motive : Expr × Cursor → Prop}
    (hnumber : c.peek.kind = .number → motive (number c.peek.text c.peek.span, c.advance))
    (hsigned : ∀ sign, c.peek.kind.sign? = some sign → motive (inner.readSigned sign c))
    (hgroup : c.peek.kind = .openParen → motive (inner.readGroup c))
    (hother : c.peek.kind.startsExpr = false →
      motive (invalid c.peek.span, c.report (.expectedOperand c.peek.kind) c.peek.span)) :
    motive (inner.readOperand c) := by
  cases hk : c.peek.kind with
  | number => rw [inner.readOperand_of_number hk]; exact hnumber hk
  | plus | minus =>
    obtain ⟨sign, hsign⟩ : ∃ sign, c.peek.kind.sign? = some sign := by rw [hk]; exact ⟨_, rfl⟩
    rw [inner.readOperand_of_sign hsign]
    exact hsigned sign hsign
  | openParen => rw [inner.readOperand_of_openParen hk]; exact hgroup hk
  | star | starStar | slash | percent | caret | closeParen | finish =>
    have hs : c.peek.kind.startsExpr = false := by rw [hk]; rfl
    rw [inner.readOperand_of_not_starts hs]
    exact hother hs

end Equations

end Nested

/-- Reads an expression with some levels left, of `limit` in all. With none left the reading gives
up: it reports this, and the node is an invalid one at the end of the text. -/
def parseAt (limit : Nat) : Nat → Nested
  | 0 => ⟨fun _ c => (invalid (.point c.stop), c.halt limit), fun _ c => by simp⟩
  | levels + 1 =>
    ⟨fun least c => (parseAt limit levels).readExpr least c,
      fun least c => (parseAt limit levels).length_readExpr_le least c⟩

/-- Reads all tokens of a text of `stop` bytes as one expression: its tree, and the reports in the
order in which they were made. -/
def parse (limit : Nat) (tokens : List Token) (stop : Nat) : Expr × List Report :=
  let start : Cursor := { rest := tokens, stop }
  let (tree, c) :=
    if tokens.isEmpty then (invalid (.point stop), start.report .emptyExpression (.point stop))
    else (parseAt limit limit).read 0 start
  let next := c.peek
  let c := if next.kind = .finish then c else c.report (.trailing next.kind) next.span
  (tree, c.log.reverse)

end Calculator.Expr

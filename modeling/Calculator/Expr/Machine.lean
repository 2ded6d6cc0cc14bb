import Calculator.Expr.Parser

/-!
# The parser as a machine

`Expr.parse` recurs on tokens that it takes off a list. A machine reads them in single steps from a
row that stays as it is. It keeps the index of the next token and the number of calls for an
expression that it is in, and on a stack what the expressions are for that the outer calls wait for.
What it does inside a call is a matter of the next token alone; whether the index and the number
bear it is a matter of the step. A step fails where it would look at a token that is not there, or
leave a call without being in one.

* `Machine.Point.act`: what is done at a point inside a call.
* `Machine.State.perform`: how an act changes the state.
* `Machine.step`: one step.
-/

namespace Calculator.Expr

/-- A row of tokens to be read with `limit` levels. Behind the tokens of the text stands one for
its end, and there is no other one of that kind. -/
structure Machine where
  tokens : List Token
  finish : Token
  limit : Nat
  finish_kind : finish.kind = .finish
  kind_ne_finish : ∀ token ∈ tokens, token.kind ≠ .finish

namespace Machine

/-- What a further expression is for, and what was read in front of it. In the call that asks for
it, operators may have the strength `least` or more. -/
inductive Frame where
  /-- The operand of the sign `token`. -/
  | signed (least : Nat) (sign : Sign) (token : Token)
  /-- The content of the group that opens at `opened`. -/
  | content (least : Nat) (opened : Token)
  /-- The right operand of the operator `token`, behind `left`. -/
  | right (least : Nat) (left : Expr) (op : BinaryOp) (token : Token)
deriving Repr

/-- A point inside a call for an expression. -/
inductive Point where
  /-- In front of the operand with which the expression starts. -/
  | operand (least : Nat)
  /-- In front of a further expression. -/
  | ask (frame : Frame)
  /-- Behind a further expression. -/
  | resume (frame : Frame) (found : Expr)
  /-- In a group that is not closed behind its content, where `depth` groups inside it are open. -/
  | skip (least : Nat) (opened : Token) (content : Expr) (depth : Nat)
  /-- Behind a group. -/
  | group (least : Nat) (opened : Token) (content : Expr)
  /-- Behind an operand, in front of the operators that may follow. -/
  | climb (least : Nat) (left : Expr)
deriving Repr

/-- What is done at a point inside a call, and where the call goes on. -/
inductive Act where
  | go (point : Point)
  | report (report : Report) (point : Point)
  /-- Passes the next token. -/
  | advance (point : Point)
  /-- Calls for a further expression. -/
  | call (frame : Frame)
  /-- Leaves the call with its expression. -/
  | leave (found : Expr)
deriving Repr

/-- The least strength of an operator in the further expression. -/
def Frame.binding : Frame → Nat
  | signed .. => Sign.binding
  | content .. => 0
  | right _ _ op _ => op.rightBinding

/-- The report that the further expression is missing, if none starts with a token of this kind. The
content of a group is called for in any case, and missed inside that call. -/
def Frame.missing? (next : Token.Kind) : Frame → Option Report
  | signed _ sign token => if next.startsExpr then none else some ⟨.missingSigned sign, token.span⟩
  | content .. => none
  | right _ _ op token => if next.startsExpr then none else some ⟨.missingRight op, token.span⟩

/-- What is done at a point in front of the token `next`, where the last token passed ends at
`lastStop`. -/
def Point.act (next : Token) (lastStop : Nat) : Point → Act
  | operand least =>
    match next.kind with
    | .number => .advance (.climb least (number next.text next.span))
    | .plus => .advance (.ask (.signed least .plus next))
    | .minus => .advance (.ask (.signed least .minus next))
    | .openParen => .advance (.ask (.content least next))
    | kind => .report ⟨.expectedOperand kind, next.span⟩ (.climb least (invalid next.span))
  | ask frame =>
    match frame.missing? next.kind with
    | none => .call frame
    | some report => .report report (.resume frame (invalid (.point report.span.stop)))
  | resume (.signed least sign token) found =>
    .go (.climb least (signed sign found (token.span.cover found.span)))
  | resume (.right least left op token) found =>
    .go (.climb least (binary op token.span left found (left.span.cover found.span)))
  | resume (.content least opened) content =>
    if next.kind = .closeParen then .advance (.group least opened content)
    else
      let place := if next.kind = .finish then .point next.span.start else next.span
      .report ⟨.unclosed opened.span next.kind, place⟩ (.skip least opened content 0)
  | skip least opened content depth =>
    match next.kind, depth with
    | .finish, _ => .go (.group least opened content)
    | .closeParen, 0 => .advance (.group least opened content)
    | .closeParen, depth + 1 => .advance (.skip least opened content depth)
    | .openParen, _ => .advance (.skip least opened content (depth + 1))
    | _, _ => .advance (.skip least opened content depth)
  | group least opened content =>
    .go (.climb least (content.withSpan ⟨opened.span.start, lastStop⟩))
  | climb least left =>
    match next.kind.binaryOp? with
    | none => .leave left
    | some op =>
      if op.leftBinding < least then .leave left else .advance (.ask (.right least left op next))

/-- Where a machine is in its work. -/
inductive Control where
  | start
  /-- At a call for an expression. -/
  | enter (least : Nat)
  /-- Inside a call. -/
  | inside (point : Point)
  /-- At the return from a call. -/
  | leave (found : Expr)
  /-- Behind the expression of the whole text. -/
  | trailing (tree : Expr)
  | done (tree : Expr)
deriving Repr

/-- The state of a machine. -/
structure State where
  /-- The index of the next token. -/
  pos : Nat := 0
  /-- The number of calls that are entered and not yet left. -/
  depth : Nat := 0
  /-- Was the limit met? From then on there are no further reports. -/
  gaveUp : Bool := false
  /-- The reports made so far, the last one first. -/
  log : List Report := []
  /-- What the expressions are for that are being called for, the innermost one first. -/
  stack : List Frame := []
  control : Control := .start
deriving Repr

namespace State

/-- The state with a further report, unless the machine has given up. -/
def report (s : State) (report : Report) : State :=
  if s.gaveUp then s else { s with log := report :: s.log }

/-- The state behind the token `next`. The end of the text is not passed. -/
def advance (s : State) (next : Token) : State :=
  if next.kind = .finish then s else { s with pos := s.pos + 1 }

/-- The state in another part of the work. -/
def goTo (s : State) (control : Control) : State := { s with control }

/-- The state behind an act in front of the token `next`. A call is left only from inside one. -/
def perform (s : State) (next : Token) : Act → Option State
  | .go point => some (s.goTo (.inside point))
  | .report report point => some ((s.report report).goTo (.inside point))
  | .advance point => some ((s.advance next).goTo (.inside point))
  | .call frame => some { s with stack := frame :: s.stack, control := .enter frame.binding }
  | .leave found =>
    match s.depth with
    | 0 => none
    | depth + 1 => some { s with depth, control := .leave found }

end State

/-- The tokens, and the one for the end behind them. -/
def row (m : Machine) : List Token := m.tokens ++ [m.finish]

/-- Where the token in front of `pos` ends; zero at the start. -/
def lastStop? (m : Machine) : Nat → Option Nat
  | 0 => some 0
  | pos + 1 => m.row[pos]?.map (·.span.stop)

/-- The state in which the machine gives up and returns from the call: it stands at the end. -/
def giveUp (m : Machine) (s : State) : Option State :=
  let last := m.row.length - 1
  m.row[last]?.map fun finish =>
    { s with pos := last, gaveUp := true, control := .leave (invalid (.point finish.span.start)) }

/-- One step of the machine, in front of the token `next`. -/
def stepAt (m : Machine) (s : State) (next : Token) : Option State :=
  match s.control with
  | .start =>
    if next.kind = .finish then
      some ((s.report ⟨.emptyExpression, next.span⟩).goTo (.trailing (invalid next.span)))
    else some (s.goTo (.enter 0))
  | .enter least =>
    if s.depth < m.limit then
      some { s with depth := s.depth + 1, control := .inside (.operand least) }
    else m.giveUp (s.report ⟨.tooNested m.limit, next.span⟩)
  | .inside point => (m.lastStop? s.pos).bind fun lastStop =>
    s.perform next (point.act next lastStop)
  | .leave found =>
    match s.stack with
    | [] => some (s.goTo (.trailing found))
    | frame :: stack => some { s with stack, control := .inside (.resume frame found) }
  | .trailing tree =>
    if next.kind = .finish then some (s.goTo (.done tree))
    else some ((s.report ⟨.trailing next.kind, next.span⟩).goTo (.done tree))
  | .done _ => none

/-- One step of the machine. There is none behind the last one, and none that would fail. -/
def step (m : Machine) (s : State) : Option State := m.row[s.pos]?.bind (m.stepAt s)

end Machine

end Calculator.Expr

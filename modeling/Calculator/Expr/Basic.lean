import Calculator.Operator
import Calculator.Span

/-!
# Expression trees

An expression is a number, a sign with its operand, a binary operator with its two operands, or an
invalid part of the text. Every node has a span, and a binary node also has that of its operator.
Parentheses have no node of their own: a node in parentheses has a span that takes them in.

* `Expr.mapSpan`: the tree with every span replaced; `Expr.bare` forgets the spans.
* `Expr.postorder`: all nodes, operands before the node and left before right, which is the order in
  which they are evaluated.
-/

namespace Calculator

/-- An expression tree. -/
inductive Expr where
  /-- A number as written. -/
  | number (text : String) (span : Span)
  | signed (sign : Sign) (operand : Expr) (span : Span)
  | binary (op : BinaryOp) (opSpan : Span) (left right : Expr) (span : Span)
  /-- A part of the text that is no expression. -/
  | invalid (span : Span)
deriving Repr, Inhabited

namespace Expr

/-- The span of the node. -/
def span : Expr → Span
  | number _ span | signed _ _ span | binary _ _ _ _ span | invalid span => span

/-- The node with another span; its operands keep theirs. -/
def withSpan (span : Span) : Expr → Expr
  | number text _ => number text span
  | signed sign operand _ => signed sign operand span
  | binary op opSpan left right _ => binary op opSpan left right span
  | invalid _ => invalid span

/-- What the node is, in words. -/
def kindName : Expr → String
  | number .. => "number"
  | signed .. => "unary expression"
  | binary .. => "binary expression"
  | invalid .. => "invalid expression"

/-- The tree with `f` applied to every span in it. -/
def mapSpan (f : Span → Span) : Expr → Expr
  | number text span => number text (f span)
  | signed sign operand span => signed sign (operand.mapSpan f) (f span)
  | binary op opSpan left right span =>
    binary op (f opSpan) (left.mapSpan f) (right.mapSpan f) (f span)
  | invalid span => invalid (f span)

/-- The tree without its spans: two trees are equal up to spans if these are equal. -/
def bare (e : Expr) : Expr := e.mapSpan fun _ => .point 0

/-- The nodes of the tree in postorder, followed by `rest`. -/
def postorderOnto (rest : List Expr) : Expr → List Expr
  | e@(number ..) | e@(invalid ..) => e :: rest
  | e@(signed _ operand _) => operand.postorderOnto (e :: rest)
  | e@(binary _ _ left right _) => left.postorderOnto (right.postorderOnto (e :: rest))

/-- The nodes of the tree in postorder: operands before the node, left before right. -/
def postorder (e : Expr) : List Expr := e.postorderOnto []

/-- Are two trees equal, spans included? The left operand comes last, so that a long chain is
compared in a loop. -/
def same : Expr → Expr → Bool
  | number text span, number text' span' => text == text' && span == span'
  | signed sign operand span, signed sign' operand' span' =>
    sign == sign' && span == span' && same operand operand'
  | binary op opSpan left right span, binary op' opSpan' left' right' span' =>
    op == op' && opSpan == opSpan' && span == span' && same right right' && same left left'
  | invalid span, invalid span' => span == span'
  | _, _ => false

theorem same_iff (a b : Expr) : same a b = true ↔ a = b := by
  induction a generalizing b with
  | number text span | invalid span => cases b <;> simp [same]
  | signed sign operand span ih =>
    cases b with
    | signed => simp only [same, Bool.and_eq_true, beq_iff_eq, ih, signed.injEq]; grind
    | _ => simp [same]
  | binary op opSpan left right span ihl ihr =>
    cases b with
    | binary => simp only [same, Bool.and_eq_true, beq_iff_eq, ihl, ihr, binary.injEq]; grind
    | _ => simp [same]

instance : DecidableEq Expr := fun a b => decidable_of_iff _ (same_iff a b)

@[simp] theorem span_withSpan (span : Span) (e : Expr) : (e.withSpan span).span = span := by
  cases e <;> rfl

@[simp] theorem span_mapSpan (f : Span → Span) (e : Expr) : (e.mapSpan f).span = f e.span := by
  cases e <;> rfl

@[simp] theorem bare_withSpan (span : Span) (e : Expr) : (e.withSpan span).bare = e.bare := by
  cases e <;> rfl

theorem postorderOnto_eq (rest : List Expr) (e : Expr) :
    e.postorderOnto rest = e.postorder ++ rest := by
  induction e generalizing rest with
  | number | invalid => rfl
  | signed sign operand span ih =>
    simp only [postorder, postorderOnto]
    rw [ih, ih [_]]
    simp
  | binary op opSpan left right span ihl ihr =>
    simp only [postorder, postorderOnto]
    rw [ihl, ihr, ihl (right.postorderOnto _), ihr [_]]
    simp

@[simp] theorem postorder_number (text : String) (span : Span) :
    (number text span).postorder = [number text span] := rfl

@[simp] theorem postorder_invalid (span : Span) : (invalid span).postorder = [invalid span] := rfl

@[simp] theorem postorder_signed (sign : Sign) (operand : Expr) (span : Span) :
    (signed sign operand span).postorder = operand.postorder ++ [signed sign operand span] :=
  postorderOnto_eq _ operand

@[simp] theorem postorder_binary (op : BinaryOp) (opSpan : Span) (left right : Expr)
    (span : Span) : (binary op opSpan left right span).postorder =
      left.postorder ++ right.postorder ++ [binary op opSpan left right span] := by
  rw [List.append_assoc, ← postorderOnto_eq, ← postorderOnto_eq]
  rfl

/-- A node is the last one of its own tree. -/
theorem mem_postorder_self (e : Expr) : e ∈ e.postorder := by
  cases e <;> simp

theorem mem_postorder_signed {part operand : Expr} {sign : Sign} {span : Span} :
    part ∈ (signed sign operand span).postorder ↔
      part ∈ operand.postorder ∨ part = signed sign operand span := by
  rw [postorder_signed, List.mem_append, List.mem_singleton]

theorem mem_postorder_binary {part left right : Expr} {op : BinaryOp} {opSpan span : Span} :
    part ∈ (binary op opSpan left right span).postorder ↔ part ∈ left.postorder ∨
      part ∈ right.postorder ∨ part = binary op opSpan left right span := by
  rw [postorder_binary, List.mem_append, List.mem_append, List.mem_singleton, or_assoc]

end Expr

end Calculator

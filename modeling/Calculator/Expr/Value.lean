import Calculator.Evaluation

/-!
# The value of a tree without a limit

`Expr.value` evaluates a tree by plain recursion: the left operand, the right operand, then the
operator. `Expr.nesting` is the number of levels that a limited evaluation uses.

* `Expr.nesting_binary`: what a chain uses, in terms of its operands.
* `Expr.nesting_le_of_mem_postorder`: the parts of a tree use no more levels than the tree.
* `Expr.foldlM_leftSpine`: a fold along the left spine is the plain recursion.
* `Expr.evalAt_eq_value`, `Expr.eval_eq_value`: with enough levels, the limited evaluation gives the
  plain value.
-/

namespace Calculator.Expr

/-- The value of a tree, however deep it nests. -/
def value : Expr → Except EvalError Number
  | number text span => Literal.value text span
  | signed sign operand _ => operand.value.map sign.apply
  | binary op _ left right span => do
    let a ← left.value
    let b ← right.value
    op.operation.apply a b span
  | e@(invalid span) => .error (.disallowed e.kindName span)

/-- Is the node a binary one? -/
def isBinary : Expr → Bool
  | binary .. => true
  | _ => false

/-- The number of levels that the operands on the left spine of a tree use. -/
def spineNesting : Expr → Nat
  | number .. | invalid .. => 1
  | signed _ operand _ => operand.spineNesting + operand.isBinary.toNat + 1
  | binary _ _ left right _ => max left.spineNesting (right.spineNesting + right.isBinary.toNat)

/-- The number of levels that the evaluation of a tree uses. A left spine is one level, above those
of its leftmost operand and of its right operands. -/
def nesting (e : Expr) : Nat := e.spineNesting + e.isBinary.toNat

theorem nesting_signed (sign : Sign) (operand : Expr) (span : Span) :
    (signed sign operand span).nesting = operand.nesting + 1 := rfl

/-- A tree uses at most one level above those of its spine. -/
theorem nesting_le_spineNesting (e : Expr) : e.nesting ≤ e.spineNesting + 1 :=
  Nat.add_le_add_left (Bool.toNat_le _) e.spineNesting

theorem nesting_pos (e : Expr) : 0 < e.nesting := by
  cases e <;> exact Nat.succ_pos _

theorem spineNesting_eq_foldl (e : Expr) : e.spineNesting =
    e.leftSpine.2.foldl (fun levels link => max levels link.right.nesting)
      e.leftSpine.1.nesting := by
  induction e with
  | number | invalid | signed => rfl
  | binary op opSpan left right span ihl ihr =>
    rw [leftSpine_binary, List.foldl_append, ← ihl]
    rfl

/-- A chain nests one level deeper than the deepest of its leftmost operand and its right
operands. -/
theorem nesting_binary (op : BinaryOp) (opSpan : Span) (left right : Expr) (span : Span) :
    let spine := (binary op opSpan left right span).leftSpine
    (binary op opSpan left right span).nesting =
      spine.2.foldl (fun levels link => max levels link.right.nesting) spine.1.nesting + 1 :=
  congrArg (· + 1) (spineNesting_eq_foldl (binary op opSpan left right span))

/-- The parts of a tree nest no deeper than the tree. -/
theorem nesting_le_of_mem_postorder {e part : Expr} (h : part ∈ e.postorder) :
    part.nesting ≤ e.nesting := by
  induction e with
  | number | invalid =>
    obtain rfl := List.mem_singleton.mp h
    exact Nat.le_refl _
  | signed sign operand span ih =>
    rcases mem_postorder_signed.mp h with h | rfl
    · exact Nat.le_succ_of_le (ih h)
    · exact Nat.le_refl _
  | binary op opSpan left right span ihl ihr =>
    have hnesting : (binary op opSpan left right span).nesting =
        max left.spineNesting right.nesting + 1 := rfl
    have hleft := left.nesting_le_spineNesting
    rcases mem_postorder_binary.mp h with h | h | rfl
    · have := ihl h
      omega
    · have := ihr h
      omega
    · exact Nat.le_refl _

/-- The value of a tree by plain recursion along its left spine, where `eval` gives the values of
the leftmost operand and of the right operands. -/
def spineValue (eval : Expr → Except EvalError Number) : Expr → Except EvalError Number
  | binary op _ left right span => do
    let a ← left.spineValue eval
    let b ← eval right
    op.operation.apply a b span
  | e => eval e

/-- Evaluating the leftmost operand and then folding the links into it is the plain recursion. -/
theorem foldlM_leftSpine (eval : Expr → Except EvalError Number) (e : Expr) :
    (do
      let first ← eval e.leftSpine.1
      e.leftSpine.2.foldlM (fun value link => do
        let right ← eval link.right
        link.op.operation.apply value right link.span) first) = e.spineValue eval := by
  induction e with
  | number | invalid | signed => simp [leftSpine, spineOnto, spineValue]
  | binary op opSpan left right span ihl ihr =>
    rw [leftSpine_binary]
    simp only [List.foldlM_append, List.foldlM_cons, List.foldlM_nil, bind_pure, spineValue,
      ← bind_assoc, ihl]

theorem evalAt_binary (limit levels depth : Nat) (op : BinaryOp) (opSpan : Span)
    (left right : Expr) (span : Span) :
    (binary op opSpan left right span).evalAt limit (levels + 1) depth =
      (binary op opSpan left right span).spineValue (evalAt limit levels (depth + 1)) :=
  foldlM_leftSpine (evalAt limit levels (depth + 1)) _

/-- The recursion along the spine gives the plain value, if `eval` does for all operands that nest
no deeper. -/
theorem spineValue_eq_value {eval : Expr → Except EvalError Number} {levels : Nat}
    (heval : ∀ e : Expr, e.nesting ≤ levels → eval e = e.value) (e : Expr)
    (h : e.spineNesting ≤ levels) : e.spineValue eval = e.value := by
  induction e with
  | number | invalid | signed => exact heval _ h
  | binary op opSpan left right span ihl ihr =>
    rw [spineValue, value, ihl (Nat.le_trans (Nat.le_max_left ..) h),
      heval right (Nat.le_trans (Nat.le_max_right ..) h)]

theorem evalAt_eq_value (limit levels depth : Nat) (e : Expr) (h : e.nesting ≤ levels) :
    e.evalAt limit levels depth = e.value := by
  induction levels generalizing depth e with
  | zero => exact absurd e.nesting_pos (Nat.not_lt_of_le h)
  | succ levels ih =>
    cases e with
    | number | invalid => rfl
    | signed sign operand span =>
      rw [evalAt, value, ih _ operand (Nat.le_of_succ_le_succ h)]
    | binary op opSpan left right span =>
      rw [evalAt_binary]
      exact spineValue_eq_value (ih _) _ (Nat.le_of_succ_le_succ h)

/-- A tree that the limit has the levels for has its plain value. -/
theorem eval_eq_value {limit : Nat} {e : Expr} (h : e.nesting ≤ limit) : e.eval limit = e.value :=
  evalAt_eq_value limit limit 0 e h

end Calculator.Expr

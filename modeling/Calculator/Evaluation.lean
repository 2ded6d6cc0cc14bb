import Calculator.Arithmetic
import Calculator.Expr.Spine

/-!
# Evaluating a tree

Operands are evaluated before their operator and left before right; the first error is the result.

A limit bounds how deep operands may nest. A left spine is evaluated in a loop and counts as one
level, however long it is: its leftmost operand and each of its right operands lie one level deeper.
So does the operand of a sign.

* `bind_eq_ok`, `mapError_bind`: an evaluation in two steps.
-/

namespace Calculator

section Steps

variable {ε ε' α β : Type}

theorem bind_eq_ok {x : Except ε α} {next : α → Except ε β} {b : β} :
    (x >>= next) = .ok b ↔ ∃ a, x = .ok a ∧ next a = .ok b := by
  cases x with
  | error => exact ⟨nofun, nofun⟩
  | ok a =>
    refine ⟨fun h => ⟨a, rfl, h⟩, fun ⟨a', ha, h⟩ => ?_⟩
    obtain rfl := Except.ok.inj ha
    exact h

theorem map_eq_ok {x : Except ε α} {h : α → β} {b : β} :
    x.map h = .ok b ↔ ∃ a, x = .ok a ∧ h a = b := by
  cases x <;> simp [Except.map]

/-- Changing the errors goes through a sequence of two steps. -/
theorem mapError_bind (g : ε → ε') (x : Except ε α) (next : α → Except ε β) :
    (x >>= next).mapError g = x.mapError g >>= fun a => (next a).mapError g := by
  cases x <;> rfl

theorem mapError_map (g : ε → ε') (x : Except ε α) (h : α → β) :
    (x.map h).mapError g = (x.mapError g).map h := by
  cases x <;> rfl

end Steps

namespace Expr

/-- The value of a tree at a depth, with so many levels left, of `limit` in all. -/
def evalAt (limit : Nat) : (levels depth : Nat) → Expr → Except EvalError Number
  | 0, depth, _ => .error (.tooDeep depth limit)
  | _ + 1, _, number text span => Literal.value text span
  | levels + 1, depth, signed sign operand _ =>
    (evalAt limit levels (depth + 1) operand).map sign.apply
  | levels + 1, depth, e@(binary ..) => do
    let spine := e.leftSpine
    let first ← evalAt limit levels (depth + 1) spine.1
    spine.2.foldlM (fun value link => do
      let right ← evalAt limit levels (depth + 1) link.right
      link.op.operation.apply value right link.span) first
  | _ + 1, _, e@(invalid span) => .error (.disallowed e.kindName span)

/-- The value of a tree whose operands nest at most `limit` levels deep. -/
def eval (limit : Nat) (e : Expr) : Except EvalError Number := e.evalAt limit limit 0

end Expr

end Calculator

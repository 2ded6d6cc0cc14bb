import Calculator.Expr.Value

/-!
# Evaluation and spans

Spans have no part in the value of a tree: they only say where an error is. So a tree whose spans
are replaced has the same value, or the same error with its span replaced.

* `Expr.evalAt_mapSpan`: the evaluation of a tree with other spans.
* `Expr.eval_bare_eq`: trees that are equal up to spans have the same value up to spans.
-/

namespace Calculator

variable (f : Span → Span)

theorem finiteAt_mapSpan (span : Span) (x : Float) :
    finiteAt (f span) x = (finiteAt span x).mapError (·.mapSpan f) := by
  unfold finiteAt
  by_cases hnan : x.isNaN = true
  · rw [if_pos hnan, if_pos hnan]
    rfl
  rw [if_neg hnan, if_neg hnan]
  by_cases hinf : x.isInf = true
  · rw [if_pos hinf, if_pos hinf]
    rfl
  · rw [if_neg hinf, if_neg hinf]
    rfl

theorem Literal.value_mapSpan (text : String) (span : Span) :
    value text (f span) = (value text span).mapError (·.mapSpan f) := by
  unfold value
  cases if hasFloatMark text.toList then none else int? text.toList with
  | some n => rfl
  | none =>
    cases float? text.toList with
    | some x => exact finiteAt_mapSpan f span x
    | none => rfl

namespace Operation

theorem onFloats_mapSpan (operation : Operation) (x y : Float) (span : Span) :
    operation.onFloats x y (f span) = (operation.onFloats x y span).mapError (·.mapSpan f) := by
  cases operation with
  | pow =>
    unfold onFloats
    by_cases hzero : (x == 0.0 && y < 0.0) = true
    · dsimp only
      rw [if_pos hzero, if_pos hzero]
      rfl
    · dsimp only
      rw [if_neg hzero, if_neg hzero]
      exact finiteAt_mapSpan f span _
  | _ => exact finiteAt_mapSpan f span _

theorem apply_mapSpan (operation : Operation) (left right : Number) (span : Span) :
    operation.apply left right (f span) =
      (operation.apply left right span).mapError (·.mapSpan f) := by
  unfold apply
  by_cases hzero : (operation.divides && right.isZero) = true
  · rw [if_pos hzero, if_pos hzero]
    rfl
  · rw [if_neg hzero, if_neg hzero]
    cases left with
    | float x => exact onFloats_mapSpan f operation _ _ span
    | int a =>
      cases right with
      | float y => exact onFloats_mapSpan f operation _ _ span
      | int b =>
        dsimp only
        cases operation.onInts? a b with
        | some n => rfl
        | none => exact onFloats_mapSpan f operation _ _ span

end Operation

namespace Expr

theorem spineValue_mapSpan {eval : Expr → Except EvalError Number}
    (heval : ∀ e : Expr, eval (e.mapSpan f) = (eval e).mapError (·.mapSpan f)) (e : Expr) :
    (e.mapSpan f).spineValue eval = (e.spineValue eval).mapError (·.mapSpan f) := by
  induction e with
  | number | invalid | signed => exact heval _
  | binary op opSpan left right span ihl ihr =>
    rw [spineValue, mapSpan, spineValue, ihl, heval, mapError_bind]
    simp only [mapError_bind, Operation.apply_mapSpan]

/-- A tree with other spans has the same value, or the same error with its span replaced. -/
theorem evalAt_mapSpan (limit levels depth : Nat) (e : Expr) :
    (e.mapSpan f).evalAt limit levels depth =
      (e.evalAt limit levels depth).mapError (·.mapSpan f) := by
  induction levels generalizing depth e with
  | zero => cases e <;> rfl
  | succ levels ih =>
    cases e with
    | number text span => exact Literal.value_mapSpan f text span
    | invalid => rfl
    | signed sign operand span =>
      rw [evalAt, mapError_map, ← ih]
      rfl
    | binary op opSpan left right span =>
      rw [evalAt_binary, ← spineValue_mapSpan f (ih (depth + 1))]
      exact evalAt_binary ..

theorem eval_mapSpan (limit : Nat) (e : Expr) :
    (e.mapSpan f).eval limit = (e.eval limit).mapError (·.mapSpan f) :=
  evalAt_mapSpan f limit limit 0 e

/-- Trees that are equal up to spans have the same value up to spans. -/
theorem eval_bare_eq {e e' : Expr} (h : e.bare = e'.bare) (limit : Nat) :
    (e.eval limit).mapError EvalError.bare = (e'.eval limit).mapError EvalError.bare := by
  have hbare (t : Expr) : (t.eval limit).mapError EvalError.bare = t.bare.eval limit :=
    (eval_mapSpan _ limit t).symm
  rw [hbare, hbare, h]

/-- A value has no spans. -/
theorem eval_eq_ok_of_bare_eq {e e' : Expr} (h : e.bare = e'.bare) {limit : Nat} {n : Number}
    (hvalue : e.eval limit = .ok n) : e'.eval limit = .ok n := by
  have heq := eval_bare_eq h limit
  rw [hvalue] at heq
  cases he : e'.eval limit with
  | ok m =>
    rw [he] at heq
    exact heq.symm
  | error error =>
    rw [he] at heq
    nomatch heq

end Expr

end Calculator

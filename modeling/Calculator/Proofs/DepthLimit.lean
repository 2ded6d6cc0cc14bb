import Calculator.Expr.Value
import Calculator.Limits

/-!
# What the depth limit changes

A limited evaluation either does what the plain recursion does or stops at the limit. It stops only
where a tree nests too deep, and then it never gives a number: the result is the limit or an error
that the plain recursion meets first.

* `Expr.evalAt_eq_value_or`: the value of a tree, or the limit.
* `Expr.evalAt_eq_value_of_le`: what is not the limit stays the value when the limit is raised.
* `Expr.nesting_le_of_evalAt`: a tree with a limited value does not nest too deep.
* `Limits.evaluate_refines_value`: what an evaluation gives, for every tree and every limit.
-/

namespace Calculator

namespace Expr

/-- Along a spine, what the operands give is the plain value or one error. If the plain recursion
meets an error first, it is that one. -/
theorem spineValue_eq_value_or {eval : Expr → Except EvalError Number} {error : EvalError}
    (heval : ∀ e : Expr, eval e = e.value ∨ eval e = .error error) (e : Expr) :
    e.spineValue eval = e.value ∨ e.spineValue eval = .error error := by
  induction e with
  | number | invalid | signed => exact heval _
  | binary op opSpan left right span ihl ihr =>
    rw [spineValue, value]
    rcases ihl with hl | hl
    · rw [hl]
      rcases heval right with hr | hr
      · exact .inl (by rw [hr])
      · rw [hr]
        cases left.value with
        | error => exact .inl rfl
        | ok => exact .inr rfl
    · exact .inr (by rw [hl]; rfl)

/-- With no levels left, an evaluation stops. -/
theorem evalAt_zero (limit depth : Nat) (e : Expr) :
    e.evalAt limit 0 depth = .error (.tooDeep depth limit) := by
  cases e <;> rfl

/-- A limited evaluation gives the plain value or stops at the limit: there, the levels that are
left and the depth make up the limit. -/
theorem evalAt_eq_value_or {limit levels depth : Nat} (hlimit : depth + levels = limit) (e : Expr) :
    e.evalAt limit levels depth = e.value ∨
      e.evalAt limit levels depth = .error (.tooDeep limit limit) := by
  induction levels generalizing depth e with
  | zero =>
    obtain rfl : depth = limit := hlimit
    exact .inr (evalAt_zero depth depth e)
  | succ levels ih =>
    have hlimit' : depth + 1 + levels = limit := by omega
    cases e with
    | number | invalid => exact .inl rfl
    | signed sign operand span =>
      rw [evalAt, value]
      rcases ih hlimit' operand with h | h
      · exact .inl (by rw [h])
      · exact .inr (by rw [h]; rfl)
    | binary op opSpan left right span =>
      rw [evalAt_binary]
      exact spineValue_eq_value_or (ih hlimit') _

/-- Along a spine, operands that keep their plain values keep the plain value of the tree. -/
theorem spineValue_eq_value_of {eval eval' : Expr → Except EvalError Number} {error : EvalError}
    (heval : ∀ e : Expr, eval e = e.value ∨ eval e = .error error)
    (herror : ∀ e : Expr, e.value ≠ .error error)
    (heval' : ∀ e : Expr, eval e = e.value → eval' e = e.value) (e : Expr)
    (h : e.spineValue eval = e.value) : e.spineValue eval' = e.value := by
  induction e with
  | number | invalid | signed => exact heval' _ h
  | binary op opSpan left right span ihl ihr =>
    have hne := herror (binary op opSpan left right span)
    rw [← h, spineValue] at hne
    rw [spineValue, value]
    rcases spineValue_eq_value_or heval left with hl | hl
    · rw [ihl hl]
      cases hvalue : left.value with
      | error => rfl
      | ok a =>
        rcases heval right with hr | hr
        · rw [heval' right hr]
        · exact absurd (by rw [hl, hvalue, hr]; rfl) hne
    · exact absurd (by rw [hl]; rfl) hne

/-- More levels do not change an evaluation that has not stopped at its limit. -/
theorem evalAt_eq_value_of_le {limit limit' levels levels' depth depth' : Nat}
    (hlimit : depth + levels = limit) (hle : levels ≤ levels')
    (herror : ∀ e : Expr, e.value ≠ .error (.tooDeep limit limit)) (e : Expr)
    (h : e.evalAt limit levels depth = e.value) : e.evalAt limit' levels' depth' = e.value := by
  induction levels generalizing levels' depth depth' e with
  | zero =>
    obtain rfl : depth = limit := hlimit
    exact absurd (h.symm.trans (evalAt_zero depth depth e)) (herror e)
  | succ levels ih =>
    have hlimit' : depth + 1 + levels = limit := by omega
    obtain ⟨levels', rfl⟩ := Nat.exists_eq_add_of_le' hle
    have hle' : levels ≤ levels' + levels := Nat.le_add_left ..
    cases e with
    | number | invalid => rfl
    | signed sign operand span =>
      have hne := herror (signed sign operand span)
      rw [← h, evalAt] at hne
      rw [← Nat.add_assoc, evalAt, value]
      rcases evalAt_eq_value_or hlimit' operand with ho | ho
      · rw [ih hlimit' hle' operand ho]
      · exact absurd (by rw [ho]; rfl) hne
    | binary op opSpan left right span =>
      rw [evalAt_binary] at h
      rw [← Nat.add_assoc, evalAt_binary]
      exact spineValue_eq_value_of (evalAt_eq_value_or hlimit') herror (ih hlimit' hle') _ h

/-- A spine has a value only if its operands do, so it nests no deeper than these may. -/
theorem spineNesting_le_of_spineValue {eval : Expr → Except EvalError Number} {levels : Nat}
    (heval : ∀ (e : Expr) (n : Number), eval e = .ok n → e.nesting ≤ levels) {e : Expr} {n : Number}
    (h : e.spineValue eval = .ok n) : e.spineNesting ≤ levels := by
  induction e generalizing n with
  | number | invalid | signed => exact heval _ n h
  | binary op opSpan left right span ihl ihr =>
    obtain ⟨a, ha, h⟩ := bind_eq_ok.mp h
    obtain ⟨b, hb, -⟩ := bind_eq_ok.mp h
    exact Nat.max_le.mpr ⟨ihl ha, heval right b hb⟩

/-- A tree that has a value with so many levels nests no deeper. -/
theorem nesting_le_of_evalAt {limit levels depth : Nat} {e : Expr} {n : Number}
    (h : e.evalAt limit levels depth = .ok n) : e.nesting ≤ levels := by
  induction levels generalizing depth e n with
  | zero => nomatch h.symm.trans (evalAt_zero limit depth e)
  | succ levels ih =>
    cases e with
    | number | invalid => exact Nat.succ_le_succ (Nat.zero_le levels)
    | signed sign operand span =>
      rw [evalAt] at h
      obtain ⟨a, ha, -⟩ := map_eq_ok.mp h
      exact Nat.succ_le_succ (ih ha)
    | binary op opSpan left right span =>
      rw [evalAt_binary] at h
      exact Nat.succ_le_succ (spineNesting_le_of_spineValue (fun _ _ => ih) h)

end Expr

namespace Limits

/-- A tree that the limit has the levels for evaluates to its plain value, be that a number or an
error. Any other tree evaluates to an error: the limit, or the error that is its plain value. -/
theorem evaluate_refines_value (limits : Limits) (e : Expr) :
    (e.nesting ≤ limits.depth → limits.evaluate e = e.value) ∧
      (limits.depth < e.nesting → ∃ error, limits.evaluate e = .error error ∧
        (error = .tooDeep limits.depth limits.depth ∨ e.value = .error error)) := by
  refine ⟨Expr.eval_eq_value, fun hdeep => ?_⟩
  cases hresult : limits.evaluate e with
  | ok n => exact absurd (Expr.nesting_le_of_evalAt hresult) (Nat.not_le_of_lt hdeep)
  | error error =>
    refine ⟨error, rfl, ?_⟩
    rcases Expr.evalAt_eq_value_or (Nat.zero_add limits.depth) e with h | h
    · exact .inr (h.symm.trans hresult)
    · exact .inl (Except.error.inj (hresult.symm.trans h))

/-- The operand of a sign on the right of a chain lies two levels below the chain. -/
theorem evaluate_refines_value_chain :
    let one : Expr := .number "1" (.point 0)
    let e : Expr := .binary .sub (.point 0) (.binary .add (.point 0) one one (.point 0))
      (.signed .minus one (.point 0)) (.point 0)
    ({ depth := 3 } : Limits).evaluate e = e.value ∧
      ∃ error, ({ depth := 2 } : Limits).evaluate e = .error error ∧
        (error = .tooDeep 2 2 ∨ e.value = .error error) := by
  intro one e
  exact ⟨(evaluate_refines_value { depth := 3 } e).1 (by decide),
    (evaluate_refines_value { depth := 2 } e).2 (by decide)⟩

end Limits

end Calculator

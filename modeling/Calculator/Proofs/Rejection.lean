import Calculator.Proofs.Fault

/-!
# Nodes without a reading

A node that stands for a mistake has no value, and neither has a number whose text is no numeral.
No operation hides such a node: a tree that holds one has no value, under any limit, and if the
nodes before it do not fail then the error is the one of that node.

* `Expr.rejection?`: the error of such a node.
* `Limits.evaluate_rejects`: what an evaluation makes of a tree that holds such a node.
-/

namespace Calculator

namespace Expr

/-- The error of a node that no operand can give a value: it stands for a mistake in a text, or it
is a number and its text is neither an integer of 64 bits nor a float. -/
def rejection? : Expr → Option EvalError
  | number text span =>
    if Literal.int? text.toList = none ∧ Literal.float? text.toList = none then
      some (.invalidLiteral text span)
    else none
  | e@(invalid span) => some (.disallowed e.kindName span)
  | signed .. | binary .. => none

theorem faults_of_rejection? {part : Expr} {error : EvalError}
    (h : part.rejection? = some error) : part.Faults error := by
  cases part with
  | number text span =>
    obtain ⟨⟨hint, hfloat⟩, rfl⟩ : (_ ∧ _) ∧ _ = error := by simpa [rejection?] using h
    show Literal.value text span = _
    rw [Literal.value, hint, hfloat, ite_self]
  | invalid span => exact (Option.some.inj h).symm
  | signed | binary => nomatch h

end Expr

namespace Limits

/-- A tree that holds a node for a mistake, or a number whose text is no numeral, has no value under
any limit. If no node before it in postorder fails and the limit is not reached, then the error is
the one of this node, at its span. -/
theorem evaluate_rejects (limits : Limits) {e part : Expr} {error : EvalError}
    (hpart : part ∈ e.postorder) (h : part.rejection? = some error) :
    (∃ error', limits.evaluate e = .error error') ∧
    ∀ before after, e.postorder = before ++ part :: after →
      (∀ node ∈ before, ∃ n, node.value = .ok n) →
      limits.evaluate e ≠ .error (.tooDeep limits.depth limits.depth) →
      limits.evaluate e = .error error ∧ error.span? = some part.span := by
  have hfaults := Expr.faults_of_rejection? h
  have herror : ∃ error', limits.evaluate e = .error error' := by
    cases heval : limits.evaluate e with
    | error error' => exact ⟨error', rfl⟩
    | ok n =>
      have hvalue : e.value = .ok n :=
        (Expr.eval_eq_value (Expr.nesting_le_of_evalAt heval)).symm.trans heval
      obtain ⟨m, hm⟩ := Expr.exists_value_of_mem_postorder hvalue hpart
      cases hm.symm.trans hfaults.value_eq
  refine ⟨herror, fun before after hpostorder hbefore hlimit => ⟨?_, hfaults.span?_eq⟩⟩
  obtain ⟨error', herror'⟩ := herror
  have hne : error' ≠ .tooDeep limits.depth limits.depth := by
    rintro rfl
    exact hlimit herror'
  obtain ⟨part', hfirst, -⟩ := Expr.exists_firstFault_of_evalAt (Nat.zero_add _) herror' hne
  rw [herror', hfirst.unique ⟨hfaults, before, after, hpostorder, hbefore⟩]

/-- In `1 + (2x / )`, as a tree that no reading of a text gives, the number comes before the
operand that is missing. -/
theorem evaluate_rejects_first :
    let offending := Expr.number "2x" ⟨5, 7⟩
    let quotient := Expr.binary .div ⟨8, 9⟩ offending (.invalid ⟨10, 10⟩) ⟨4, 11⟩
    let e := Expr.binary .add ⟨2, 3⟩ (.number "1" ⟨0, 1⟩) quotient ⟨0, 11⟩
    (∃ error, evaluate {} e = .error error) ∧
      evaluate {} e = .error (.invalidLiteral "2x" offending.span) := by
  intro offending quotient e
  have h := @evaluate_rejects {} e offending (.invalidLiteral "2x" ⟨5, 7⟩) (by decide +kernel)
    (by decide +kernel)
  have hbefore : ∀ node ∈ [Expr.number "1" ⟨0, 1⟩], ∃ n, node.value = .ok n := fun node hnode =>
    ⟨.int 1, by rw [List.mem_singleton.mp hnode]; rfl⟩
  have hlimit : evaluate {} e ≠ .error (.tooDeep 1024 1024) := fun hdeep =>
    e.value_ne_tooDeep 1024 1024 ((Expr.eval_eq_value (by decide)).symm.trans hdeep)
  exact ⟨h.1, (h.2 _ _ rfl hbefore hlimit).1⟩

end Limits

end Calculator

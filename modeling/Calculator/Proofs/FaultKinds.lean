import Calculator.Proofs.FiniteValues
import Calculator.Proofs.NestingBound
import Calculator.Proofs.RoundTrip

/-!
# How the value of a text fails

In the tree of an accepted text every part is whole and every number is a numeral, and there are
levels enough for it. What is left to fail is arithmetic: a division by zero, a result beyond the
greatest float, a power that is not real. The first node to fail decides which, by the values of its
operands.

* `Limits.FailsAs`: the errors of a node, by the values of its operands.
* `Limits.value_or_fault`: the tree of an accepted text has a value, or its first fault decides.
-/

namespace Calculator

namespace Expr

variable {limits : Limits} {e part : Expr}

/-- With levels for a tree, an evaluation is the plain recursion on every part of it. -/
theorem evaluate_eq_value (hdepth : e.nesting ≤ limits.depth) (h : part ∈ e.postorder) :
    limits.evaluate part = part.value :=
  eval_eq_value (Nat.le_trans (nesting_le_of_mem_postorder h) hdepth)

theorem evaluate_operands {op : BinaryOp} {opSpan span : Span} {left right : Expr}
    (hdepth : (binary op opSpan left right span).nesting ≤ limits.depth) :
    limits.evaluate left = left.value ∧ limits.evaluate right = right.value :=
  ⟨evaluate_eq_value hdepth (mem_postorder_binary.mpr (.inl left.mem_postorder_self)),
    evaluate_eq_value hdepth (mem_postorder_binary.mpr (.inr (.inl right.mem_postorder_self)))⟩

/-- The parts of a tree that can be printed can be printed. -/
theorem WellFormed.of_mem_postorder (hwell : e.WellFormed) (h : part ∈ e.postorder) :
    part.WellFormed := by
  induction e with
  | number | invalid =>
    obtain rfl := List.mem_singleton.mp h
    exact hwell
  | signed sign operand span ih =>
    rcases mem_postorder_signed.mp h with h | rfl
    · exact ih hwell h
    · exact hwell
  | binary op opSpan left right span ihl ihr =>
    rcases mem_postorder_binary.mp h with h | h | rfl
    · exact ihl hwell.1 h
    · exact ihr hwell.2 h
    · exact hwell

end Expr

namespace Limits

/-- The node fails with the error though its operands have values. A number is too great. An
operation divides by zero exactly if the values of its operands say so, it has a result that is not
real only if it is a power, and otherwise its result is too great. -/
def FailsAs (limits : Limits) : Expr → EvalError → Prop
  | .number _ span, error => error = .overflow span
  | .binary op _ left right span, error => ∃ a b, limits.evaluate left = .ok a ∧
      limits.evaluate right = .ok b ∧
      (error = .divisionByZero span ∨ error = .overflow span ∨ error = .notReal span) ∧
      (error = .divisionByZero span ↔ op.operation.DividesByZero a b) ∧
      (error = .notReal span → op.operation = .pow)
  | .signed .., _ | .invalid .., _ => False

/-- The node divides by zero, by the values of its operands. -/
def DividesByZero (limits : Limits) : Expr → Prop
  | .binary op _ left right _ => ∃ a b, limits.evaluate left = .ok a ∧
      limits.evaluate right = .ok b ∧ op.operation.DividesByZero a b
  | .number .. | .signed .. | .invalid .. => False

variable {limits limits' : Limits} {text : String} {tree part : Expr} {error : EvalError}

theorem FailsAs.cases (h : limits.FailsAs part error) :
    error = .divisionByZero part.span ∨ error = .overflow part.span ∨
      error = .notReal part.span := by
  cases part with
  | number => exact .inr (.inl h)
  | binary =>
    obtain ⟨a, b, -, -, h, -⟩ := h
    exact h
  | signed | invalid => exact h.elim

/-- A fault of a part that can be printed is one of arithmetic. -/
theorem failsAs_of_faults (hpart : part.WellFormed) (hdepth : part.nesting ≤ limits.depth)
    (h : part.Faults error) : limits.FailsAs part error := by
  cases part with
  | number text span => exact Literal.overflow_of_value hpart h
  | signed => exact h
  | invalid => exact hpart
  | binary op opSpan left right span =>
    obtain ⟨a, b, hleft, hright, h⟩ := h
    obtain ⟨hleft', hright'⟩ := Expr.evaluate_operands hdepth
    have hfinite := Expr.isFinite_of_value hleft
    have hfinite' := Expr.isFinite_of_value hright
    have herror := Operation.error_of_apply hfinite hfinite' h
    refine ⟨a, b, hleft'.trans hleft, hright'.trans hright,
      herror.imp_right fun h => h.imp_right And.left, ?_, ?_⟩
    · rw [← Operation.apply_eq_divisionByZero_iff hfinite hfinite', h, Except.error.injEq]
    · rintro rfl
      rcases herror with h | h | h
      · nomatch h
      · nomatch h
      · exact h.2

/-- A node that divides by zero fails for this. -/
theorem evaluate_of_dividesByZero (hdepth : part.nesting ≤ limits.depth)
    (h : limits.DividesByZero part) :
    limits.evaluate part = .error (.divisionByZero part.span) := by
  cases part with
  | number | signed | invalid => exact h.elim
  | binary op opSpan left right span =>
    obtain ⟨a, b, hleft, hright, hzero⟩ := h
    obtain ⟨hleft', hright'⟩ := Expr.evaluate_operands hdepth
    rw [hleft'] at hleft
    rw [hright'] at hright
    rw [Expr.evaluate_eq_value hdepth (Expr.mem_postorder_self _), Expr.value, hleft, hright]
    exact (Operation.apply_eq_divisionByZero_iff (Expr.isFinite_of_value hleft)
      (Expr.isFinite_of_value hright)).mpr hzero

/-- An evaluation with one level more than texts may have gives the tree of an accepted text a
value, or it fails for arithmetic: the first node in postorder without a value fails though its
operands do not, and its error, at its span, is the error of the tree. Each node that divides by
zero fails. -/
theorem value_or_fault (limits limits' : Limits) (text : String) (tree : Expr)
    (hparse : limits.parse text = .ok tree) (hdepth : limits.nesting + 1 ≤ limits'.depth) :
    ((∃ n, limits'.evaluate tree = .ok n) ∨
    ∃ error part before after, limits'.evaluate tree = .error error ∧
      (error = .divisionByZero part.span ∨ error = .overflow part.span ∨
        error = .notReal part.span) ∧
      tree.postorder = before ++ part :: after ∧
      (∀ node ∈ before, ∃ n, limits'.evaluate node = .ok n) ∧
      limits'.evaluate part = .error error ∧ limits'.FailsAs part error) ∧
    ∀ node ∈ tree.postorder, limits'.DividesByZero node →
      limits'.evaluate node = .error (.divisionByZero node.span) := by
  have hlevels := Nat.le_trans (nesting_le_of_parse hparse) hdepth
  have hvalue {node : Expr} (h : node ∈ tree.postorder) : limits'.evaluate node = node.value :=
    Expr.evaluate_eq_value hlevels h
  refine ⟨?_, fun node hnode => evaluate_of_dividesByZero
    (Nat.le_trans (Expr.nesting_le_of_mem_postorder hnode) hlevels)⟩
  cases htree : tree.value with
  | ok n => exact .inl ⟨n, (hvalue tree.mem_postorder_self).trans htree⟩
  | error error =>
    obtain ⟨part, hfirst⟩ := Expr.exists_firstFault_of_value htree
    have hpart := hfirst.mem
    obtain ⟨hfaults, before, after, hpostorder, hbefore⟩ := hfirst
    have hfails := failsAs_of_faults ((wellFormed_of_parse hparse).of_mem_postorder hpart)
      (Nat.le_trans (Expr.nesting_le_of_mem_postorder hpart) hlevels) hfaults
    refine .inr ⟨error, part, before, after, (hvalue tree.mem_postorder_self).trans htree,
      hfails.cases, hpostorder, fun node hnode => ?_, (hvalue hpart).trans hfaults.value_eq, hfails⟩
    obtain ⟨n, hn⟩ := hbefore node hnode
    have hmem : node ∈ tree.postorder := by
      rw [hpostorder]
      exact List.mem_append_left _ hnode
    exact ⟨n, (hvalue hmem).trans hn⟩

/-- The quotient in a sum is at fault, and the sum has its error. -/
theorem value_or_fault_quotient :
    let limits : Limits := { nesting := 3, depth := 4 }
    let quotient : Expr := .binary .div ⟨3, 4⟩ (.number "1" ⟨2, 3⟩) (.number "0" ⟨4, 5⟩) ⟨2, 5⟩
    let tree : Expr := .binary .add ⟨1, 2⟩ (.number "2" ⟨0, 1⟩) quotient ⟨0, 5⟩
    limits.parse "2+1/0" = .ok tree ∧
      ∃ part before after, limits.evaluate tree = .error (.divisionByZero ⟨2, 5⟩) ∧
        part.span = ⟨2, 5⟩ ∧ tree.postorder = before ++ part :: after ∧
        (∀ node ∈ before, ∃ n, limits.evaluate node = .ok n) ∧
        limits.FailsAs part (.divisionByZero ⟨2, 5⟩) ∧
        limits.evaluate quotient = .error (.divisionByZero ⟨2, 5⟩) := by
  intro limits quotient tree
  have hparse : limits.parse "2+1/0" = .ok tree := by decide +kernel
  have hvalue : limits.evaluate tree = .error (.divisionByZero ⟨2, 5⟩) := by decide +kernel
  obtain ⟨hcases, hdivides⟩ := value_or_fault limits limits "2+1/0" tree hparse (by decide)
  have hquotient : limits.evaluate quotient = .error (.divisionByZero quotient.span) :=
    hdivides quotient (by decide) ⟨.int 1, .int 0, by decide +kernel, by decide +kernel,
      .inl ⟨rfl, .inl rfl⟩⟩
  rcases hcases with
    ⟨n, hn⟩ | ⟨error, part, before, after, herror, hcases, hpostorder, hbefore, -, hfails⟩
  · cases hvalue.symm.trans hn
  · obtain rfl := Except.error.inj (hvalue.symm.trans herror)
    refine ⟨hparse, part, before, after, hvalue, ?_, hpostorder, hbefore, hfails, hquotient⟩
    rcases hcases with h | h | h
    · exact (EvalError.divisionByZero.inj h).symm
    · cases h
    · cases h

end Limits

end Calculator

import Calculator.Analysis
import Calculator.Evaluation
import Calculator.Failure

/-!
# The calculator

`Limits.parse` turns a text into a tree, `Limits.evaluate` a tree into a number, and
`Limits.calculate` does both. The limits say how deep expressions may nest, in the text and in the
tree.

* `Limits.calculate_eq_undefined_iff`: how a calculation fails in its second step.
-/

namespace Calculator

/-- How deep expressions may nest. -/
structure Limits where
  /-- The number of levels in a text. -/
  nesting : Nat := Analysis.defaultNesting
  /-- The number of levels in a tree. A tree that was read from a text has at most one more than
  its text. -/
  depth : Nat := 1024
deriving DecidableEq, Repr

namespace Limits

/-- The tree of a text on which there are no reports. -/
def parse (limits : Limits) (text : String) : Except SyntaxError Expr :=
  let analysis := Analysis.ofText limits.nesting text
  if analysis.hasReports then .error ⟨analysis.diagnostics⟩ else .ok analysis.tree

/-- The value of a tree. -/
def evaluate (limits : Limits) (e : Expr) : Except EvalError Number := e.eval limits.depth

/-- The value of a text. -/
def calculate (limits : Limits) (text : String) : Except Failure Number := do
  let tree ← (limits.parse text).mapError .malformed
  (limits.evaluate tree).mapError .undefined

/-- A text without a value is one whose tree has no value. -/
theorem calculate_eq_undefined_iff {limits : Limits} {text : String} {error : EvalError} :
    limits.calculate text = .error (.undefined error) ↔
      ∃ tree, limits.parse text = .ok tree ∧ limits.evaluate tree = .error error := by
  unfold calculate
  cases limits.parse text with
  | error => exact ⟨nofun, fun ⟨_, h, _⟩ => nomatch h⟩
  | ok tree =>
    simp only [Except.ok.injEq, exists_eq_left']
    show (limits.evaluate tree).mapError Failure.undefined = _ ↔ _
    cases limits.evaluate tree with
    | error error' => exact ⟨fun h => congrArg _ (Failure.undefined.inj (Except.error.inj h)),
        fun h => congrArg _ (congrArg _ (Except.error.inj h))⟩
    | ok n => exact ⟨nofun, nofun⟩

end Limits

end Calculator

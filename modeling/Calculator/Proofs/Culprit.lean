import Calculator.Proofs.EvaluationSpans
import Calculator.Proofs.Excerpt
import Calculator.Proofs.Fault

/-!
# Errors point at what fails

The span of an evaluation error delimits a piece of the text that fails by itself. It is the piece
under the node at fault, and that node fails in its own tree as it does in the tree of the text; it
needs no more levels there.

* `Limits.exists_fault_of_calculate`: the node at fault in a text.
* `Limits.calculate_culprit`: the piece under the span of an error fails with the same error.
-/

namespace Calculator.Limits

variable {limits : Limits} {text : String} {error : EvalError} {span : Span}

/-- A calculation with an error at a span has a node with this span that fails, however it is
evaluated, and for which there are levels enough. -/
theorem exists_fault_of_calculate (h : limits.calculate text = .error (.undefined error))
    (hspan : error.span? = some span) : ∃ tree part, limits.parse text = .ok tree ∧
      part ∈ tree.postorder ∧ part.span = span ∧ limits.evaluate part = .error error := by
  obtain ⟨tree, hparse, hresult⟩ := calculate_eq_undefined_iff.mp h
  have hne : error ≠ .tooDeep limits.depth limits.depth := by
    rintro rfl
    nomatch hspan
  obtain ⟨part, hfirst, hnesting⟩ := Expr.exists_firstFault_of_evalAt (Nat.zero_add _) hresult hne
  refine ⟨tree, part, hparse, hfirst.mem, ?_, ?_⟩
  · exact Option.some.inj (hfirst.1.span?_eq.symm.trans hspan)
  · exact (Expr.eval_eq_value hnesting).trans hfirst.1.value_eq

/-- An error of an evaluation points at a culprit that fails by itself: under its span stands a
piece of the text that fails with the same error under the same limits, and there the error is put
down to the whole piece. -/
theorem calculate_culprit (limits : Limits) (text : String) (error : EvalError) (span : Span)
    (h : limits.calculate text = .error (.undefined error)) (hspan : error.span? = some span) :
    (∃ piece, span.Cuts text piece) ∧ ∀ piece, span.Cuts text piece →
      limits.calculate piece =
        .error (.undefined (error.mapSpan fun _ => ⟨0, span.stop - span.start⟩)) := by
  obtain ⟨tree, part, hparse, hpart, rfl, hfails⟩ := exists_fault_of_calculate h hspan
  obtain ⟨-, piece, hcuts, hpiece⟩ := exists_parse_excerpt hparse hpart
  refine ⟨⟨piece, hcuts⟩, fun piece' hcuts' => ?_⟩
  obtain rfl := hcuts.unique hcuts'
  refine calculate_eq_undefined_iff.mpr ⟨_, hpiece, ?_⟩
  have hmoved : limits.evaluate (part.mapSpan (Span.relativeTo part.span.start)) =
      .error (error.mapSpan (Span.relativeTo part.span.start)) := by
    refine (Expr.eval_mapSpan _ _ part).trans ?_
    rw [show part.eval limits.depth = .error error from hfails]
    rfl
  rw [hmoved, EvalError.mapSpan_of_span? hspan, Span.relativeTo, Nat.sub_self]

/-- The quotient is to blame, with its parentheses, and not the sum around it. -/
theorem calculate_culprit_group :
    let limits : Limits := { nesting := 4, depth := 3 }
    limits.calculate "2+(1/0)" = .error (.undefined (.divisionByZero ⟨2, 7⟩)) ∧
      Span.Cuts ⟨2, 7⟩ "2+(1/0)" "(1/0)" ∧
      limits.calculate "(1/0)" = .error (.undefined (.divisionByZero ⟨0, 5⟩)) := by
  intro limits
  have hfails : limits.calculate "2+(1/0)" = .error (.undefined (.divisionByZero ⟨2, 7⟩)) := by
    decide +kernel
  have hcuts : Span.Cuts ⟨2, 7⟩ "2+(1/0)" "(1/0)" := ⟨"2+", "", by decide, by decide⟩
  exact ⟨hfails, hcuts, (calculate_culprit limits _ _ _ hfails rfl).2 _ hcuts⟩

end Calculator.Limits

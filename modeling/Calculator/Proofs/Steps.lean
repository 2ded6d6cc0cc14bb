import Calculator.Proofs.Reading
import Mathlib.Logic.Relation

/-!
# The steps of a reading

Whatever the parser reads, its cursor takes steps of a few kinds only, and each of them reports at
most on the token that was the next one before it. What every step keeps is kept by a reading.

* `Cursor.Step`: the kinds of steps. `Cursor.Step.leads` and `Cursor.Step.log_eq_or` say where one
  leads and what it reports.
* `Expr.Nested.Steps`: a reading takes steps. Each part of the parser keeps this; `parseAt_steps`
  says it of every number of levels.
* `Expr.steps_readAll`: the reading of all tokens, from the first one to its end.
-/

namespace Calculator

namespace Cursor

/-- The cursor takes one step. -/
inductive Step (limit : Nat) : Cursor → Cursor → Prop
  /-- Over the next token. -/
  | advance (c : Cursor) : Step limit c c.advance
  /-- To a report on the next token. -/
  | report (c : Cursor) (problem : Problem) : Step limit c (c.report problem c.peek.span)
  /-- Over an operator or a sign, and to a report on it. -/
  | missing (c : Cursor) (problem : Problem) :
    Step limit c (c.advance.report problem c.peek.span)
  /-- To the end of the group in which it stands. -/
  | skipPastClose (c : Cursor) : Step limit c c.skipPastClose
  /-- To the end of the text, as the limit is met. -/
  | halt (c : Cursor) : Step limit c (c.halt limit)

/-- The cursor takes any number of steps. -/
abbrev Steps (limit : Nat) : Cursor → Cursor → Prop := Relation.ReflTransGen (Step limit)

variable {limit : Nat} {c c' : Cursor}

theorem Step.leads (h : Step limit c c') : c.Leads c' := by
  cases h with
  | advance => exact c.leads_advance
  | report problem => exact c.leads_report _ _
  | missing problem => exact c.leads_advance.trans (Cursor.leads_report ..)
  | skipPastClose => exact c.leads_skipPastClose
  | halt => exact c.leads_halt limit

theorem log_report (c : Cursor) (problem : Problem) (span : Span) :
    (c.report problem span).log = c.log ∨
      (c.report problem span).log = ⟨problem, span⟩ :: c.log := by
  unfold report
  split
  · exact .inl rfl
  · exact .inr rfl

/-- A step reports nothing, or something on the token that was the next one. -/
theorem Step.log_eq_or (h : Step limit c c') :
    c'.log = c.log ∨ ∃ problem, c'.log = ⟨problem, c.peek.span⟩ :: c.log := by
  cases h with
  | advance => exact .inl c.log_advance
  | report problem => exact (c.log_report _ _).imp_right fun h => ⟨problem, h⟩
  | missing problem =>
    rw [← c.log_advance]
    exact (c.advance.log_report _ _).imp_right fun h => ⟨problem, h⟩
  | skipPastClose => exact .inl rfl
  | halt => exact (c.log_report _ _).imp_right fun h => ⟨.tooNested limit, h⟩

end Cursor

namespace Expr

open Cursor (Step Steps)

namespace Nested

/-- Every reading takes steps. -/
def Steps (limit : Nat) (inner : Nested) : Prop :=
  ∀ (least : Nat) (c : Cursor), Cursor.Steps limit c (inner.read least c).2

variable {limit : Nat} {inner : Nested} (h : inner.Steps limit)
include h

theorem steps_readSigned (sign : Sign) (c : Cursor) :
    Cursor.Steps limit c (inner.readSigned sign c).2 := by
  cases hs : c.advance.peek.kind.startsExpr with
  | true =>
    rw [inner.readSigned_of_starts hs]
    exact .head (.advance c) (h _ _)
  | false =>
    rw [inner.readSigned_of_not_starts hs]
    exact .single (.missing c _)

theorem steps_readRight (op : BinaryOp) (c : Cursor) :
    Cursor.Steps limit c (inner.readRight op c).2 := by
  cases hs : c.advance.peek.kind.startsExpr with
  | true =>
    rw [inner.readRight_of_starts hs]
    exact .head (.advance c) (h _ _)
  | false =>
    rw [inner.readRight_of_not_starts hs]
    exact .single (.missing c _)

theorem steps_readGroup (c : Cursor) : Cursor.Steps limit c (inner.readGroup c).2 := by
  refine .head (.advance c) ((h 0 c.advance).trans ?_)
  by_cases hclose : (inner.read 0 c.advance).2.peek.kind = .closeParen
  · rw [inner.readGroup_of_closed hclose]
    exact .single (.advance _)
  · rw [inner.readGroup_of_not_closed hclose]
    exact .head (.report _ _) (.single (.skipPastClose _))

theorem steps_readOperand (c : Cursor) : Cursor.Steps limit c (inner.readOperand c).2 :=
  inner.readOperand_cases (motive := fun found => Cursor.Steps limit c found.2)
    (fun _ => .single (.advance c)) (fun sign _ => steps_readSigned h sign c)
    (fun _ => steps_readGroup h c) fun _ => .single (.report c _)

theorem steps_climb (least : Nat) (left : Expr) (c : Cursor) :
    Cursor.Steps limit c (inner.climb least left c).2 := by
  fun_induction inner.climb least left c with
  | case1 | case2 => exact .refl
  | case3 left c op hop hle right hlt ih => exact (steps_readRight h op c).trans ih

theorem steps_readExpr (least : Nat) (c : Cursor) :
    Cursor.Steps limit c (inner.readExpr least c).2 :=
  (steps_readOperand h c).trans (steps_climb h least _ _)

end Nested

theorem parseAt_steps (limit levels : Nat) : (parseAt limit levels).Steps limit := by
  induction levels with
  | zero => exact fun _ c => .single (.halt c)
  | succ levels ih => exact Nested.steps_readExpr ih

theorem steps_readAll (limit : Nat) (tokens : List Token) (stop : Nat) :
    Steps limit { rest := tokens, stop } (readAll limit tokens stop).2 := by
  by_cases hnil : tokens = []
  · subst hnil
    exact .single (.report _ .emptyExpression)
  · rw [readAll_of_ne_nil _ _ hnil]
    refine (parseAt_steps limit limit 0 _).trans ?_
    dsimp only
    unfold Cursor.reportTrailing
    split
    · exact .refl
    · exact .single (.report _ _)

end Expr

end Calculator

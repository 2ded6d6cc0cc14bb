import Calculator.Limits
import Calculator.Proofs.EvaluationSpans
import Calculator.Proofs.Reading
import Mathlib.Control.Monad.Basic

/-!
# Only the tokens matter

Where the tokens of a text stand, and how its powers are spelled, has no part in what is read. A
plain token has no span, no text unless it is a number, and `^` for `**`; trees, reports and
cursors have plain forms as well. Reading plain tokens gives the plain form of what is read from the
tokens themselves, in every part of the parser, so that texts with the same plain tokens have the
same outcome.

* `Cursor.peek_plain`, `Cursor.advance_plain` and the like: the steps of a cursor.
* `Nested.KeepsPlain`: a reading of plain tokens. Each part of the parser keeps this;
  `parseAt_keepsPlain` says it of every number of levels.
* `Expr.parse_plain`: a whole text.
* `Expr.eval_plain_eq`: trees with the same plain form have the same value up to spans.
* `Limits.outcome_of_tokens`: texts with the same plain tokens.
-/

namespace Calculator

/-! ## Plain forms -/

namespace BinaryOp

/-- The operator with one spelling for powers. -/
def plain : BinaryOp → BinaryOp
  | starStar => caret
  | op => op

/-- Only one operator has two spellings. -/
theorem eq_starStar_or_plain_eq (op : BinaryOp) : op = starStar ∨ op.plain = op := by
  cases op <;> first | exact .inr rfl | exact .inl rfl

@[simp] theorem leftBinding_plain (op : BinaryOp) : op.plain.leftBinding = op.leftBinding := by
  cases op <;> rfl

@[simp] theorem rightBinding_plain (op : BinaryOp) : op.plain.rightBinding = op.rightBinding := by
  cases op <;> rfl

@[simp] theorem operation_plain (op : BinaryOp) : op.plain.operation = op.operation := by
  cases op <;> rfl

end BinaryOp

namespace Token

namespace Kind

/-- The kind with one spelling for powers. -/
def plain : Kind → Kind
  | starStar => caret
  | kind => kind

variable (kind : Kind)

/-- Only one kind has two spellings. -/
theorem eq_starStar_or_plain_eq : kind = starStar ∨ kind.plain = kind := by
  cases kind <;> first | exact .inr rfl | exact .inl rfl

@[simp] theorem startsExpr_plain : kind.plain.startsExpr = kind.startsExpr := by
  cases kind <;> rfl

@[simp] theorem sign?_plain : kind.plain.sign? = kind.sign? := by
  cases kind <;> rfl

@[simp] theorem binaryOp?_plain : kind.plain.binaryOp? = kind.binaryOp?.map BinaryOp.plain := by
  cases kind <;> rfl

/-- A kind that is no operator has one spelling. -/
theorem plain_eq_iff {kind kind' : Kind} (h : kind'.binaryOp? = none) :
    kind.plain = kind' ↔ kind = kind' := by
  rcases kind.eq_starStar_or_plain_eq with rfl | hkind
  · constructor <;> rintro rfl <;> nomatch h
  · rw [hkind]

@[simp] theorem plain_eq_number : kind.plain = .number ↔ kind = .number := plain_eq_iff rfl

@[simp] theorem plain_eq_openParen : kind.plain = .openParen ↔ kind = .openParen :=
  plain_eq_iff rfl

@[simp] theorem plain_eq_closeParen : kind.plain = .closeParen ↔ kind = .closeParen :=
  plain_eq_iff rfl

@[simp] theorem plain_eq_finish : kind.plain = .finish ↔ kind = .finish := plain_eq_iff rfl

end Kind

/-- What counts of a token: its kind, with one spelling for powers, and the text of a number. -/
def plain (token : Token) : Token :=
  ⟨token.kind.plain, if token.kind = .number then token.text else "", .point 0⟩

@[simp] theorem kind_plain (token : Token) : token.plain.kind = token.kind.plain := rfl

@[simp] theorem span_plain (token : Token) : token.plain.span = .point 0 := rfl

theorem text_plain {token : Token} (h : token.kind = .number) : token.plain.text = token.text :=
  if_pos h

end Token

namespace Problem

/-- The problem without spans and with one spelling for powers. -/
def plain : Problem → Problem
  | expectedOperand found => expectedOperand found.plain
  | missingRight op => missingRight op.plain
  | unclosed _ found => unclosed (.point 0) found.plain
  | trailing found => trailing found.plain
  | problem => problem

end Problem

namespace Report

/-- The problem alone, in its plain form. -/
def plain (report : Report) : Report := ⟨report.problem.plain, .point 0⟩

end Report

namespace Expr

/-- The tree with `^` for every `**`. -/
def withCarets : Expr → Expr
  | number text span => number text span
  | signed sign operand span => signed sign operand.withCarets span
  | binary op opSpan left right span =>
    binary op.plain opSpan left.withCarets right.withCarets span
  | invalid span => invalid span

/-- The tree without spans and with one spelling for powers. -/
def plain (e : Expr) : Expr := e.withCarets.bare

@[simp] theorem span_plain (e : Expr) : e.plain.span = .point 0 := span_mapSpan ..

end Expr

namespace Cursor

/-- The cursor at the same place among the plain tokens. -/
def plain (c : Cursor) : Cursor where
  rest := c.rest.map Token.plain
  stop := 0
  log := c.log.map Report.plain
  halted := c.halted

/-! ## Steps of a cursor -/

variable (c : Cursor)

@[simp] theorem peek_plain : c.plain.peek = c.peek.plain := by
  unfold peek plain
  cases c.rest <;> rfl

@[simp] theorem advance_plain : c.plain.advance = c.advance.plain := by
  obtain ⟨rest, stop, lastStop, log, halted⟩ := c
  cases rest <;> rfl

theorem report_plain (problem : Problem) (span : Span) :
    c.plain.report problem.plain (.point 0) = (c.report problem span).plain := by
  cases hc : c.halted <;> simp [report, plain, Report.plain, hc]

theorem halt_plain (limit : Nat) : c.plain.halt limit = (c.halt limit).plain := by
  -- The cursor jumps behind the last token, and every plain token ends at the start of the text.
  have hlast : ((c.plain.rest.getLast?.map (·.span.stop)).getD c.plain.lastStop) = 0 := by
    rw [plain, List.getLast?_map]
    cases c.rest.getLast? <;> rfl
  have hreport := c.report_plain (.tooNested limit) c.peek.span
  unfold halt
  rw [hlast, peek_plain, Token.span_plain, show Problem.tooNested limit =
    (Problem.tooNested limit).plain from rfl, hreport]
  rfl

theorem skipGroup_plain (depth lastStop : Nat) (tokens : List Token) :
    skipGroup depth 0 (tokens.map Token.plain) =
      ((skipGroup depth lastStop tokens).1.map Token.plain, 0) := by
  fun_induction skipGroup depth lastStop tokens with
  | case1 => rfl
  | case2 lastStop token rest hkind => simp [skipGroup, hkind, Token.Kind.plain]
  | case3 lastStop token rest depth hkind ih => simpa [skipGroup, hkind, Token.Kind.plain] using ih
  | case4 depth lastStop token rest hkind ih => simpa [skipGroup, hkind, Token.Kind.plain] using ih
  | case5 depth lastStop token rest h₁ h₂ h₃ ih =>
    rw [← ih]
    cases hkind : token.kind <;> simp_all [skipGroup, Token.Kind.plain]

theorem skipPastClose_plain : c.plain.skipPastClose = c.skipPastClose.plain := by
  unfold skipPastClose plain
  rw [skipGroup_plain 0 c.lastStop c.rest]

theorem reportTrailing_plain : c.plain.reportTrailing = c.reportTrailing.plain := by
  unfold reportTrailing
  rw [peek_plain, Token.kind_plain]
  by_cases hfinish : c.peek.kind = .finish
  · rw [if_pos hfinish, if_pos ((Token.Kind.plain_eq_finish _).mpr hfinish)]
  · rw [if_neg hfinish, if_neg (mt (Token.Kind.plain_eq_finish _).mp hfinish)]
    exact c.report_plain (.trailing c.peek.kind) c.peek.span

end Cursor

/-! ## Readings -/

namespace Expr

namespace Nested

/-- Plain tokens are read as the plain form of what is read from the tokens. -/
def KeepsPlain (inner : Nested) : Prop :=
  ∀ (least : Nat) (c : Cursor),
    inner.read least c.plain = (inner.read least c).map Expr.plain Cursor.plain

/-- A node that is given another span has the plain form that it had. -/
theorem map_withSpan (e : Expr) (start : Nat) (c : Cursor) :
    (e.withSpan ⟨start, c.lastStop⟩, c).map Expr.plain Cursor.plain =
      (e.plain.withSpan ⟨0, c.plain.lastStop⟩, c.plain) := by
  cases e <;> rfl

variable {inner : Nested} (h : inner.KeepsPlain) (c : Cursor)
include h

theorem readSigned_plain (sign : Sign) :
    inner.readSigned sign c.plain = (inner.readSigned sign c).map Expr.plain Cursor.plain := by
  cases hs : c.advance.peek.kind.startsExpr with
  | true =>
    rw [inner.readSigned_of_starts hs, inner.readSigned_of_starts (by simpa using hs),
      Cursor.advance_plain, h, Cursor.peek_plain, Prod.map_fst, Token.span_plain, span_plain]
    rfl
  | false =>
    rw [inner.readSigned_of_not_starts hs, inner.readSigned_of_not_starts (by simpa using hs),
      Cursor.advance_plain, Cursor.peek_plain]
    exact congrArg (Prod.mk _) (c.advance.report_plain (.missingSigned sign) c.peek.span)

theorem readRight_plain (op : BinaryOp) :
    inner.readRight op.plain c.plain = (inner.readRight op c).map Expr.plain Cursor.plain := by
  cases hs : c.advance.peek.kind.startsExpr with
  | true =>
    rw [inner.readRight_of_starts hs, inner.readRight_of_starts (by simpa using hs),
      Cursor.advance_plain, BinaryOp.rightBinding_plain, h]
  | false =>
    rw [inner.readRight_of_not_starts hs, inner.readRight_of_not_starts (by simpa using hs),
      Cursor.advance_plain, Cursor.peek_plain]
    exact congrArg (Prod.mk _) (c.advance.report_plain (.missingRight op) c.peek.span)

theorem readGroup_plain :
    inner.readGroup c.plain = (inner.readGroup c).map Expr.plain Cursor.plain := by
  have hcontent := h 0 c.advance
  rw [← Cursor.advance_plain] at hcontent
  unfold readGroup
  dsimp only
  rw [hcontent]
  simp only [Prod.map_fst, Prod.map_snd, Cursor.peek_plain, Token.kind_plain,
    Token.Kind.plain_eq_closeParen, Token.span_plain]
  split
  · rw [Cursor.advance_plain, map_withSpan]
    rfl
  · have hreport := (inner.read 0 c.advance).2.report_plain
      (.unclosed c.peek.span (inner.read 0 c.advance).2.peek.kind)
      (inner.read 0 c.advance).2.peek.span
    rw [Problem.plain] at hreport
    rw [hreport, Cursor.skipPastClose_plain, map_withSpan]
    rfl

theorem readOperand_plain :
    inner.readOperand c.plain = (inner.readOperand c).map Expr.plain Cursor.plain := by
  refine inner.readOperand_cases
    (motive := fun found => inner.readOperand c.plain = found.map Expr.plain Cursor.plain)
    (fun kind => ?_) (fun sign kind => ?_) (fun kind => ?_) (fun kind => ?_)
  · rw [inner.readOperand_of_number (by simpa using kind), Cursor.peek_plain, Cursor.advance_plain,
      Token.text_plain kind]
    rfl
  · rw [inner.readOperand_of_sign (by simpa using kind)]
    exact readSigned_plain h c sign
  · rw [inner.readOperand_of_openParen (by simpa using kind)]
    exact readGroup_plain h c
  · rw [inner.readOperand_of_not_starts (by simpa using kind), Cursor.peek_plain]
    exact congrArg (Prod.mk _) (c.report_plain (.expectedOperand c.peek.kind) c.peek.span)

omit h in
/-- The loop takes the same operators, however they are spelled. -/
theorem climb_plain (h : inner.KeepsPlain) (least : Nat) (left : Expr) (c : Cursor) :
    inner.climb least left.plain c.plain =
      (inner.climb least left c).map Expr.plain Cursor.plain := by
  fun_induction inner.climb least left c with
  | case1 left c hop => exact inner.climb_of_none _ (by simp [hop])
  | case2 left c op hop hlt =>
    have hplain : c.plain.peek.kind.binaryOp? = some op.plain := by simp [hop]
    exact inner.climb_of_lt _ hplain (by simpa using hlt)
  | case3 left c op hop hle right hlt ih =>
    have hplain : c.plain.peek.kind.binaryOp? = some op.plain := by simp [hop]
    rw [← ih, inner.climb_of_le _ hplain (by simpa using hle), readRight_plain h c op,
      Cursor.peek_plain, span_plain, Token.span_plain, Prod.map_fst, span_plain]
    rfl

theorem readExpr_plain (least : Nat) :
    inner.readExpr least c.plain = (inner.readExpr least c).map Expr.plain Cursor.plain := by
  unfold readExpr
  dsimp only
  rw [readOperand_plain h c]
  exact climb_plain h least _ _

end Nested

theorem parseAt_keepsPlain (limit levels : Nat) : (parseAt limit levels).KeepsPlain := by
  induction levels with
  | zero => exact fun least c => congrArg (Prod.mk _) (c.halt_plain limit)
  | succ levels ih => exact fun least c => Nested.readExpr_plain ih c least

theorem readAll_plain (limit : Nat) (tokens : List Token) (stop : Nat) :
    readAll limit (tokens.map Token.plain) 0 =
      (readAll limit tokens stop).map Expr.plain Cursor.plain := by
  by_cases hnil : tokens = []
  · subst hnil
    rfl
  · have hne : tokens.map Token.plain ≠ [] := by simpa using hnil
    have hread := parseAt_keepsPlain limit limit 0 { rest := tokens, stop }
    rw [readAll_of_ne_nil _ _ hnil, readAll_of_ne_nil _ _ hne]
    rw [show ({ rest := tokens.map Token.plain, stop := 0 } : Cursor) =
      Cursor.plain { rest := tokens, stop } from rfl, hread]
    exact congrArg (Prod.mk _) (Cursor.reportTrailing_plain _)

/-- A text of plain tokens is read as the plain form of the text, with the same problems. -/
theorem parse_plain (limit : Nat) (tokens : List Token) (stop : Nat) :
    parse limit (tokens.map Token.plain) 0 =
      (parse limit tokens stop).map Expr.plain (List.map Report.plain) := by
  rw [parse_eq, parse_eq, readAll_plain limit tokens stop]
  exact congrArg (Prod.mk _) List.map_reverse.symm

/-! ## Values -/

theorem spineValue_withCarets {eval : Expr → Except EvalError Number}
    (heval : ∀ e : Expr, eval e.withCarets = eval e) (e : Expr) :
    e.withCarets.spineValue eval = e.spineValue eval := by
  induction e with
  | number | invalid | signed => exact heval _
  | binary op opSpan left right span ihl ihr =>
    rw [withCarets, spineValue, spineValue, ihl, heval, BinaryOp.operation_plain]

/-- Both spellings of a power have the same value. -/
theorem evalAt_withCarets (limit levels depth : Nat) (e : Expr) :
    e.withCarets.evalAt limit levels depth = e.evalAt limit levels depth := by
  induction levels generalizing depth e with
  | zero => cases e <;> rfl
  | succ levels ih =>
    cases e with
    | number | invalid => rfl
    | signed sign operand span => rw [withCarets, evalAt, evalAt, ih]
    | binary op opSpan left right span =>
      rw [evalAt_binary, ← spineValue_withCarets (ih (depth + 1))]
      exact evalAt_binary ..

/-- Trees with the same plain form have the same value up to spans. -/
theorem eval_plain_eq {e e' : Expr} (h : e.plain = e'.plain) (limit : Nat) :
    (e.eval limit).mapError EvalError.bare = (e'.eval limit).mapError EvalError.bare := by
  have heval (t : Expr) : t.eval limit = t.withCarets.eval limit :=
    (evalAt_withCarets limit limit 0 t).symm
  rw [heval e, heval e']
  exact eval_bare_eq h limit

end Expr

/-! ## Texts -/

/-- The text with `^` for every `**`. -/
def Text.withCarets : List Char → List Char
  | [] => []
  | '*' :: '*' :: cs => '^' :: withCarets cs
  | c :: cs => c :: withCarets cs

/-- The words for a problem are those of its plain form, up to the spelling of a power. -/
theorem Problem.withCarets_message (problem : Problem) :
    Text.withCarets problem.plain.message.toList = Text.withCarets problem.message.toList := by
  cases problem with
  | expectedOperand found | trailing found =>
    rcases found.eq_starStar_or_plain_eq with rfl | h
    · decide
    · rw [plain, h]
  | unclosed opened found =>
    rcases found.eq_starStar_or_plain_eq with rfl | h
    · show Text.withCarets "expected ')', found `^`".toList =
        Text.withCarets "expected ')', found `**`".toList
      decide
    · rw [plain, h]
      rfl
  | missingRight op =>
    rcases op.eq_starStar_or_plain_eq with rfl | h
    · decide
    · rw [plain, h]
  | _ => rfl

/-- What a report says, up to the spelling of a power. -/
def Diagnostic.plainMessage (d : Diagnostic) : List Char := Text.withCarets d.message.toList

/-- Reports with the same plain form say the same. -/
theorem Report.plainMessages_toDiagnostic (reports : List Report) :
    (reports.map toDiagnostic).map Diagnostic.plainMessage =
      (reports.map plain).map fun report => report.toDiagnostic.plainMessage := by
  rw [List.map_map, List.map_map]
  exact List.map_congr_left fun report _ => (Problem.withCarets_message report.problem).symm

namespace Limits

/-- A text without a fault is accepted with its tree, or rejected with its reports. -/
theorem parse_of_fault_eq_none {limits : Limits} {text : String} {tree : Expr}
    {reports : List Report} (hfault : (Scan.ofText text).fault = none)
    (h : Expr.parse limits.nesting (Scan.ofText text).tokens (Scan.ofText text).stop =
      (tree, reports)) :
    limits.parse text =
      if reports = [] then .ok tree else .error ⟨reports.map Report.toDiagnostic⟩ := by
  have hanalysis : Analysis.ofText limits.nesting text = ⟨tree, reports⟩ := by
    unfold Analysis.ofText Analysis.ofScan
    rw [h, hfault]
    rfl
  unfold parse
  rw [hanalysis]
  cases reports <;> rfl

/-- Texts that differ in the blanks between their tokens and in the spelling of powers alone are
both rejected, for the same reasons in the same order, or both accepted, with the same tree and the
same value or error. Where the tokens stand has no part in this. -/
theorem outcome_of_tokens (limits : Limits) (text text' : String)
    (hfault : (Scan.ofText text).fault = none) (hfault' : (Scan.ofText text').fault = none)
    (htokens : (Scan.ofText text).tokens.map Token.plain =
      (Scan.ofText text').tokens.map Token.plain) :
    (∃ error error', limits.parse text = .error error ∧ limits.parse text' = .error error' ∧
      error.diagnostics.map Diagnostic.plainMessage =
        error'.diagnostics.map Diagnostic.plainMessage) ∨
    ∃ tree tree', limits.parse text = .ok tree ∧ limits.parse text' = .ok tree' ∧
      tree.plain = tree'.plain ∧
      (limits.evaluate tree).mapError EvalError.bare =
        (limits.evaluate tree').mapError EvalError.bare := by
  obtain ⟨tree, reports, hparse⟩ : ∃ tree reports, Expr.parse limits.nesting
      (Scan.ofText text).tokens (Scan.ofText text).stop = (tree, reports) := ⟨_, _, rfl⟩
  obtain ⟨tree', reports', hparse'⟩ : ∃ tree reports, Expr.parse limits.nesting
      (Scan.ofText text').tokens (Scan.ofText text').stop = (tree, reports) := ⟨_, _, rfl⟩
  have hplain : (tree, reports).map Expr.plain (List.map Report.plain) =
      (tree', reports').map Expr.plain (List.map Report.plain) := by
    rw [← hparse, ← hparse', ← Expr.parse_plain, ← Expr.parse_plain, htokens]
  obtain ⟨htree, hreports⟩ := Prod.mk.inj hplain
  have hnil : reports = [] ↔ reports' = [] := by
    rw [← List.map_eq_nil_iff (f := Report.plain), hreports, List.map_eq_nil_iff]
  by_cases hempty : reports = []
  · have haccept := parse_of_fault_eq_none hfault hparse
    have haccept' := parse_of_fault_eq_none hfault' hparse'
    rw [if_pos hempty] at haccept
    rw [if_pos (hnil.mp hempty)] at haccept'
    exact .inr ⟨tree, tree', haccept, haccept', htree, Expr.eval_plain_eq htree limits.depth⟩
  · have hreject := parse_of_fault_eq_none hfault hparse
    have hreject' := parse_of_fault_eq_none hfault' hparse'
    rw [if_neg hempty] at hreject
    rw [if_neg (mt hnil.mpr hempty)] at hreject'
    refine .inl ⟨_, _, hreject, hreject', ?_⟩
    dsimp only
    rw [Report.plainMessages_toDiagnostic, Report.plainMessages_toDiagnostic, hreports]

/-- A power that is accepted in both spellings, and one that is rejected in both. -/
theorem outcome_of_powers :
    (∃ tree tree', ({} : Limits).parse "(1+2)**3" = .ok tree ∧
      ({} : Limits).parse " ( 1 + 2 ) ^ 3 " = .ok tree' ∧ tree.plain = tree'.plain ∧
      (({} : Limits).evaluate tree).mapError EvalError.bare =
        (({} : Limits).evaluate tree').mapError EvalError.bare) ∧
    ∃ error error', ({} : Limits).parse "2 **" = .error error ∧
      ({} : Limits).parse "2^" = .error error' ∧
      error.diagnostics.map Diagnostic.plainMessage =
        error'.diagnostics.map Diagnostic.plainMessage := by
  have haccepted : (({} : Limits).parse "(1+2)**3").isOk = true := by decide +kernel
  have hrejected : (({} : Limits).parse "2 **").isOk = false := by decide +kernel
  constructor
  · refine (outcome_of_tokens {} "(1+2)**3" " ( 1 + 2 ) ^ 3 " (by decide +kernel)
      (by decide +kernel) (by decide +kernel)).resolve_left ?_
    rintro ⟨error, error', h, -⟩
    rw [h] at haccepted
    nomatch haccepted
  · refine (outcome_of_tokens {} "2 **" "2^" (by decide +kernel) (by decide +kernel)
      (by decide +kernel)).resolve_right ?_
    rintro ⟨tree, tree', h, -⟩
    rw [h] at hrejected
    nomatch hrejected

end Limits

end Calculator

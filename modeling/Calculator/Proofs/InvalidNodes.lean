import Calculator.Proofs.Containment
import Mathlib.Data.List.Forall2

/-!
# Invalid nodes and their reports

The parser makes an invalid node where it misses an expression, and reports this. The nodes of the
tree, from left to right, are those of the reports in the order in which they are made: a reading
that has given up makes neither, and what is passed over behind a group that is not closed has no
node.

* `Expr.invalidSpans`: the spans of the invalid nodes from left to right.
* `Report.Explains`: the report says why there is an invalid node with that span.
* `Expr.Accounts`: the reports made on the way explain the invalid nodes found, one for one. Each
  part of the parser keeps this, and `parseAt_accounts` says it of every number of levels.
* `Analysis.invalid_nodes_reported`: the reports on a text explain the invalid nodes of its tree.
-/

namespace Calculator

open Grammar

/-! ## Invalid nodes -/

namespace Expr

/-- The span of a node that is invalid. -/
def invalidSpan? : Expr → Option Span
  | invalid span => some span
  | number .. | signed .. | binary .. => none

/-- The spans of the invalid nodes in the tree, from left to right. -/
def invalidSpans (e : Expr) : List Span := e.postorder.filterMap invalidSpan?

@[simp] theorem invalidSpans_number (text : String) (span : Span) :
    (number text span).invalidSpans = [] := rfl

@[simp] theorem invalidSpans_invalid (span : Span) : (invalid span).invalidSpans = [span] := rfl

@[simp] theorem invalidSpans_signed (sign : Sign) (operand : Expr) (span : Span) :
    (signed sign operand span).invalidSpans = operand.invalidSpans := by
  rw [invalidSpans, postorder_signed, List.filterMap_append]
  exact List.append_nil _

@[simp] theorem invalidSpans_binary (op : BinaryOp) (opSpan : Span) (left right : Expr)
    (span : Span) : (binary op opSpan left right span).invalidSpans =
      left.invalidSpans ++ right.invalidSpans := by
  rw [invalidSpans, postorder_binary, List.filterMap_append, List.filterMap_append]
  exact List.append_nil _

/-- A group changes the span of no invalid node inside it. -/
theorem invalidSpans_withSpan (span : Span) (e : Expr) :
    (e.withSpan span).invalidSpans = e.invalidSpans ∨ ∃ old, e = invalid old := by
  cases e with
  | number | signed | binary => exact .inl (by simp only [withSpan, invalidSpans_number,
      invalidSpans_signed, invalidSpans_binary])
  | invalid old => exact .inr ⟨old, rfl⟩

theorem mem_invalidSpans {e : Expr} {span : Span} :
    span ∈ e.invalidSpans ↔ invalid span ∈ e.postorder := by
  refine List.mem_filterMap.trans ⟨?_, fun h => ⟨_, h, rfl⟩⟩
  rintro ⟨part, hpart, hspan⟩
  cases part with
  | invalid => exact Option.some.inj hspan ▸ hpart
  | number | signed | binary => nomatch hspan

end Expr

/-! ## Reports of invalid nodes -/

/-- An expression is missing, or the limit is met in its place. -/
def Problem.missesExpr : Problem → Bool
  | emptyExpression | expectedOperand _ | missingRight _ | missingSigned _ | tooNested _ => true
  | unexpectedChar _ | unclosed .. | trailing _ => false

/-- The words of a diagnostic say that an expression is missing, or that the limit is met. -/
def Diagnostic.missesExpr (nesting : Nat) (d : Diagnostic) : Bool :=
  d.message == "empty expression" || "expected expression".toList.isPrefixOf d.message.toList ||
    d.message == "expression nested too deeply (limit " ++ toString nesting ++ ")"

namespace Diagnostic

theorem missesExpr_iff {nesting : Nat} {d : Diagnostic} : d.missesExpr nesting = true ↔
    d.message = "empty expression" ∨ "expected expression".toList <+: d.message.toList ∨
      d.message = "expression nested too deeply (limit " ++ toString nesting ++ ")" := by
  rw [missesExpr, Bool.or_eq_true, Bool.or_eq_true, beq_iff_eq, beq_iff_eq,
    List.isPrefixOf_iff_prefix, or_assoc]

theorem missesExpr_of_front {nesting : Nat} {d : Diagnostic} {front back : String}
    (hmessage : d.message = front ++ back)
    (hfront : "expected expression".toList <+: front.toList) : d.missesExpr nesting = true := by
  refine missesExpr_iff.mpr (.inr (.inl (hfront.trans ?_)))
  rw [hmessage, String.toList_append]
  exact List.prefix_append ..

/-- A message that starts with other words says nothing of the kind. -/
theorem missesExpr_eq_false {nesting : Nat} {d : Diagnostic} {front back : String}
    (hmessage : d.message = front ++ back) (hlength : 10 ≤ front.toList.length)
    (hfront : front.toList.take 10 ∉
      ["empty expr".toList, "expected e".toList, "expression".toList]) :
    d.missesExpr nesting = false := by
  have htake : d.message.toList.take 10 = front.toList.take 10 := by
    rw [hmessage, String.toList_append, List.take_append_of_le_length hlength]
  rw [← htake] at hfront
  refine Bool.eq_false_iff.mpr fun h => hfront ?_
  rcases missesExpr_iff.mp h with h | ⟨back', h⟩ | h
  · rw [h]
    decide
  · rw [← h, List.take_append_of_le_length (by decide)]
    decide
  · rw [h, String.append_assoc, String.toList_append, List.take_append_of_le_length (by decide)]
    decide

end Diagnostic

namespace Report

/-- The place in which the parser puts the node for a report: behind an operator or a sign without
an operand, at the end of the text if the limit is met, or else where the report points. -/
def PutsAt (scan : Scan) (report : Report) (span : Span) : Prop :=
  match report.problem with
  | .emptyExpression | .expectedOperand _ => span = report.span
  | .missingRight _ | .missingSigned _ => span = .point report.span.stop
  | .tooNested _ => span = .point scan.stop
  | .unexpectedChar _ | .unclosed .. | .trailing _ => False

/-- The report says why there is an invalid node with the span. If the node is the content of a
group, the span starts with the group, in front of what is reported. -/
def Explains (scan : Scan) (report : Report) (span : Span) : Prop :=
  report.PutsAt scan span ∨ ∃ opened ∈ scan.tokens, opened.kind = .openParen ∧
    span.start = opened.span.start ∧ opened.span.stop ≤ report.span.start

/-- The report is made while an expression is read, from `start` on. -/
structure OfReading (limit start : Nat) (report : Report) : Prop where
  problem : report.problem.missesExpr = true ∨
    ∃ opened found, report.problem = .unclosed opened found
  limit : ∀ limit', report.problem = .tooNested limit' → limit' = limit
  start_le : start ≤ report.span.start

theorem OfReading.mono {limit start start' : Nat} {report : Report}
    (h : report.OfReading limit start) (hle : start' ≤ start) : report.OfReading limit start' :=
  ⟨h.problem, h.limit, Nat.le_trans hle h.start_le⟩

/-- The words of a report say that an expression is missing exactly if this is its problem. -/
theorem missesExpr_toDiagnostic {limit : Nat} {report : Report}
    (hlimit : ∀ limit', report.problem = .tooNested limit' → limit' = limit) :
    report.toDiagnostic.missesExpr limit = report.problem.missesExpr := by
  obtain ⟨problem, span⟩ := report
  cases problem with
  | emptyExpression => rfl
  | expectedOperand found =>
    have hwords : (Problem.expectedOperand found).message =
        "expected expression, found " ++ found.describe := rfl
    exact Diagnostic.missesExpr_of_front hwords (by decide)
  | missingRight op =>
    have hwords : (Problem.missingRight op).message =
        "expected expression after '" ++ (op.symbol ++ "'") := String.append_assoc
    exact Diagnostic.missesExpr_of_front hwords (by decide)
  | missingSigned sign =>
    have hwords : (Problem.missingSigned sign).message =
        "expected expression after unary '" ++ (sign.symbol ++ "'") := String.append_assoc
    exact Diagnostic.missesExpr_of_front hwords (by decide)
  | tooNested limit' =>
    obtain rfl := hlimit limit' rfl
    exact Diagnostic.missesExpr_iff.mpr (.inr (.inr rfl))
  | unexpectedChar c =>
    have hwords : (Problem.unexpectedChar c).message =
        "unexpected char '" ++ (c.toString ++ "'") := String.append_assoc
    exact Diagnostic.missesExpr_eq_false hwords (by decide) (by decide)
  | unclosed opened found =>
    have hwords : (Problem.unclosed opened found).message =
        "expected ')', found " ++ found.describe := rfl
    exact Diagnostic.missesExpr_eq_false hwords (by decide) (by decide)
  | trailing found =>
    have hwords : (Problem.trailing found).message =
        "unexpected " ++ (found.describe ++ " after expression") := String.append_assoc
    exact Diagnostic.missesExpr_eq_false hwords (by decide) (by decide)

end Report

/-! ## Readings -/

namespace Expr

/-- The reports `made` from `c` on, the last one first, explain the invalid nodes that are found. -/
structure Explained (scan : Scan) (limit : Nat) (c : Cursor) (found : Expr × Cursor)
    (made : List Report) : Prop where
  log_eq : found.2.log = made ++ c.log
  ofReading : ∀ report ∈ made, report.OfReading limit c.lastStop
  explains : List.Forall₂ (Report.Explains scan)
    (made.reverse.filter (·.problem.missesExpr)) found.1.invalidSpans

/-- The reports made on the way to what is found explain the invalid nodes in it. -/
def Accounts (scan : Scan) (limit : Nat) (c : Cursor) (found : Expr × Cursor) : Prop :=
  ∃ made, Explained scan limit c found made

variable {scan : Scan} {limit : Nat} {start c c' : Cursor} {e operand left right : Expr}

/-- Where nothing is reported, no node is invalid. -/
theorem accounts_of_log_eq (hlog : c'.log = c.log) (he : e.invalidSpans = []) :
    Accounts scan limit c (e, c') :=
  ⟨[], hlog, nofun, he ▸ .nil⟩

/-- One report for one node. -/
theorem accounts_report {problem : Problem} {span place : Span}
    (hlog : c'.log = ⟨problem, span⟩ :: c.log)
    (hreading : Report.OfReading limit c.lastStop ⟨problem, span⟩)
    (hmisses : problem.missesExpr = true) (hplace : Report.PutsAt scan ⟨problem, span⟩ place) :
    Accounts scan limit c (invalid place, c') := by
  refine ⟨[⟨problem, span⟩], hlog, List.forall_mem_singleton.mpr hreading, ?_⟩
  have hfilter : [Report.mk problem span].reverse.filter (·.problem.missesExpr) =
      [⟨problem, span⟩] := List.filter_cons_of_pos hmisses
  rw [hfilter]
  exact .cons (.inl hplace) .nil

/-- What explains the nodes from some place on explains them from an earlier one. -/
theorem Accounts.extend (h : Accounts scan limit c (e, c')) (hlog : c.log = start.log)
    (hle : start.lastStop ≤ c.lastStop) : Accounts scan limit start (e, c') := by
  obtain ⟨made, h⟩ := h
  exact ⟨made, hlog ▸ h.log_eq, fun report hmem => (h.ofReading report hmem).mono hle, h.explains⟩

theorem Accounts.signed (h : Accounts scan limit c (operand, c')) (sign : Sign) (span : Span) :
    Accounts scan limit c (.signed sign operand span, c') := by
  obtain ⟨made, h⟩ := h
  exact ⟨made, h.log_eq, h.ofReading, (invalidSpans_signed sign operand span).symm ▸ h.explains⟩

/-- The nodes of the left operand stand in front, and they are reported first. -/
theorem Accounts.binary (hl : Accounts scan limit start (left, c))
    (hr : Accounts scan limit c (right, c')) (hle : start.lastStop ≤ c.lastStop) (op : BinaryOp)
    (opSpan span : Span) : Accounts scan limit start (.binary op opSpan left right span, c') := by
  obtain ⟨madeLeft, hl⟩ := hl
  obtain ⟨madeRight, hr⟩ := hr
  refine ⟨madeRight ++ madeLeft, ?_, fun report hmem => ?_, ?_⟩
  · rw [List.append_assoc, ← hl.log_eq, ← hr.log_eq]
  · rcases List.mem_append.mp hmem with hmem | hmem
    · exact (hr.ofReading report hmem).mono hle
    · exact hl.ofReading report hmem
  · rw [List.reverse_append, List.filter_append, invalidSpans_binary]
    exact List.rel_append hl.explains hr.explains

/-- A group whose content is invalid gives it its span, which starts in front of the report. -/
theorem Explained.withSpan {made : List Report} (h : Explained scan limit c (e, c') made)
    {opened : Token} (hmem : opened ∈ scan.tokens) (kind : opened.kind = .openParen)
    (hle : opened.span.stop ≤ c.lastStop) (stop : Nat) :
    List.Forall₂ (Report.Explains scan) (made.reverse.filter (·.problem.missesExpr))
      (e.withSpan ⟨opened.span.start, stop⟩).invalidSpans := by
  rcases invalidSpans_withSpan ⟨opened.span.start, stop⟩ e with heq | ⟨old, rfl⟩
  · exact heq ▸ h.explains
  · obtain ⟨report, rest, hreport, hrest, hmade⟩ := List.forall₂_cons_right_iff.mp h.explains
    have hin : report ∈ made := by
      have hfilter : report ∈ made.reverse.filter (·.problem.missesExpr) :=
        hmade ▸ List.mem_cons_self
      exact List.mem_reverse.mp (List.mem_of_mem_filter hfilter)
    rw [hmade]
    exact .cons (.inr ⟨opened, hmem, kind, rfl,
      Nat.le_trans hle (h.ofReading report hin).start_le⟩) hrest

namespace Nested

/-- Every reading at a place in the scan that has not given up explains its invalid nodes. -/
def Accounts (scan : Scan) (limit : Nat) (inner : Nested) : Prop :=
  ∀ (least : Nat) (c : Cursor), c.At scan → c.halted = false →
    Expr.Accounts scan limit c (inner.read least c)

variable (hscan : Ordered scan.tokensToEnd) {inner : Nested} (h : inner.Accounts scan limit)
  (hc : c.At scan) (hopen : c.halted = false)
include hscan h hc hopen

theorem accounts_readSigned (sign : Sign) :
    Expr.Accounts scan limit c (inner.readSigned sign c) := by
  have hpassed := hc.lastStop_le_advance hscan
  cases hs : c.advance.peek.kind.startsExpr with
  | true =>
    rw [inner.readSigned_of_starts hs]
    have hoperand := h Sign.binding c.advance hc.advance (c.halted_advance.trans hopen)
    exact (hoperand.extend c.log_advance hpassed).signed sign _
  | false =>
    rw [inner.readSigned_of_not_starts hs,
      Cursor.report_of_not_halted (c.halted_advance.trans hopen)]
    refine Expr.Accounts.signed (accounts_report (congrArg _ c.log_advance) ?_ rfl ?_) sign _
    · exact ⟨.inl rfl, nofun, hc.lastStop_le_peek hscan⟩
    · exact rfl

theorem accounts_readRight (op : BinaryOp) :
    Expr.Accounts scan limit c (inner.readRight op c) := by
  have hpassed := hc.lastStop_le_advance hscan
  cases hs : c.advance.peek.kind.startsExpr with
  | true =>
    rw [inner.readRight_of_starts hs]
    have hright := h op.rightBinding c.advance hc.advance (c.halted_advance.trans hopen)
    exact hright.extend c.log_advance hpassed
  | false =>
    rw [inner.readRight_of_not_starts hs,
      Cursor.report_of_not_halted (c.halted_advance.trans hopen)]
    refine accounts_report (congrArg _ c.log_advance) ?_ rfl rfl
    exact ⟨.inl rfl, nofun, hc.lastStop_le_peek hscan⟩

omit h hopen in
/-- Behind the content of a group, at the most a group that is not closed is reported. -/
theorem log_readGroup (limit : Nat) (hfits : inner.Fits scan) (hleads : inner.Leads) :
    ∃ more, (inner.readGroup c).2.log = more ++ (inner.read 0 c.advance).2.log ∧
      ∀ report ∈ more, report.OfReading limit c.lastStop ∧ report.problem.missesExpr = false := by
  cases hhalted : (inner.read 0 c.advance).2.halted with
  | true => exact ⟨[], (inner.leads_content c).silent hhalted, nofun⟩
  | false =>
    by_cases hclose : (inner.read 0 c.advance).2.peek.kind = .closeParen
    · rw [inner.readGroup_of_closed hclose]
      exact ⟨[], Cursor.log_advance _, nofun⟩
    · have hend : (inner.read 0 c.advance).2.At scan := (hfits 0 _ hc.advance).1.at_end
      have hpassed := hc.lastStop_le_of_suffix hscan hend
        (c.leads_advance.trans (hleads 0 _)).rest_suffix
      rw [inner.readGroup_of_not_closed hclose, Cursor.report_of_not_halted hhalted]
      refine ⟨[_], rfl, List.forall_mem_singleton.mpr ⟨⟨.inr ⟨_, _, rfl⟩, nofun, ?_⟩, rfl⟩⟩
      exact Nat.le_trans hpassed (hend.lastStop_le_peek hscan)

theorem accounts_readGroup (hfits : inner.Fits scan) (hleads : inner.Leads)
    (kind : c.peek.kind = .openParen) : Expr.Accounts scan limit c (inner.readGroup c) := by
  have hpassed := hc.lastStop_le_advance hscan
  have hopened : c.peek ∈ scan.tokens := by
    obtain ⟨front, htokens, -⟩ := hc.exists_front
    rw [htokens, Cursor.rest_eq_cons_of_openParen kind]
    exact List.mem_append_right _ List.mem_cons_self
  obtain ⟨made, hcontent⟩ := h 0 c.advance hc.advance (c.halted_advance.trans hopen)
  obtain ⟨more, hlog, hmore⟩ := log_readGroup hscan hc limit hfits hleads
  have hstop : c.peek.span.stop ≤ c.advance.lastStop :=
    Nat.le_of_eq (c.lastStop_advance (by rw [kind]; nofun)).symm
  have hfilter : more.reverse.filter (·.problem.missesExpr) = [] :=
    List.filter_eq_nil_iff.mpr fun report hmem => by
      rw [(hmore report (List.mem_reverse.mp hmem)).2]
      exact Bool.false_ne_true
  refine ⟨more ++ made, ?_, fun report hmem => ?_, ?_⟩
  · rw [hlog, hcontent.log_eq, c.log_advance, List.append_assoc]
  · rcases List.mem_append.mp hmem with hmem | hmem
    · exact (hmore report hmem).1
    · exact (hcontent.ofReading report hmem).mono hpassed
  · rw [List.reverse_append, List.filter_append, hfilter, List.append_nil]
    exact hcontent.withSpan hopened kind hstop _

theorem accounts_readOperand (hfits : inner.Fits scan) (hleads : inner.Leads) :
    Expr.Accounts scan limit c (inner.readOperand c) := by
  refine inner.readOperand_cases (motive := Expr.Accounts scan limit c)
    (fun _ => accounts_of_log_eq c.log_advance rfl)
    (fun sign _ => accounts_readSigned hscan h hc hopen sign)
    (fun kind => accounts_readGroup hscan h hc hopen hfits hleads kind) fun _ => ?_
  rw [Cursor.report_of_not_halted hopen]
  exact accounts_report rfl ⟨.inl rfl, nofun, hc.lastStop_le_peek hscan⟩ rfl rfl

omit hc hopen in
/-- The loop over operators adds what the right operands explain. -/
theorem accounts_climb (hfits : inner.Fits scan) (hleads : inner.Leads)
    (hparked : inner.KeepsParked) (least : Nat) (left : Expr) (c : Cursor) (hc : c.At scan)
    (hrest : c.Parked) (hle : start.lastStop ≤ c.lastStop)
    (hleft : Expr.Accounts scan limit start (left, c)) :
    Expr.Accounts scan limit start (inner.climb least left c) := by
  fun_induction inner.climb least left c with
  | case1 | case2 => exact hleft
  | case3 left c op hop _ right hlt ih =>
    have hright := accounts_readRight hscan h hc (hrest.not_halted hop) op
    have hend : right.2.At scan := (fits_readRight hfits hc hop).1.at_end
    have hpassed := hc.lastStop_le_of_suffix hscan hend (leads_readRight hleads op c).rest_suffix
    exact ih hend (parked_readRight hparked hrest op) (Nat.le_trans hle hpassed)
      (hleft.binary hright hle op _ _)

theorem accounts_readExpr (hfits : inner.Fits scan) (hleads : inner.Leads)
    (hparked : inner.KeepsParked) (least : Nat) :
    Expr.Accounts scan limit c (inner.readExpr least c) := by
  have hend := (fits_readOperand hscan hfits hc hleads).1.at_end
  have hpassed := hc.lastStop_le_of_suffix hscan hend (leads_readOperand hleads c).rest_suffix
  have hrest : c.Parked := fun hhalted => nomatch hopen.symm.trans hhalted
  exact accounts_climb hscan h hfits hleads hparked least _ _ hend
    (parked_readOperand hparked hrest) hpassed (accounts_readOperand hscan h hc hopen hfits hleads)

end Nested

theorem parseAt_accounts (hscan : Ordered scan.tokensToEnd) (limit levels : Nat) :
    (parseAt limit levels).Accounts scan limit := by
  induction levels with
  | zero =>
    intro least c hc hopen
    have hlog : (c.halt limit).log = ⟨.tooNested limit, c.peek.span⟩ :: c.log := by
      show (c.report (.tooNested limit) c.peek.span).log = _
      rw [Cursor.report_of_not_halted hopen]
    refine accounts_report hlog ?_ rfl (congrArg Span.point hc.stop_eq)
    exact ⟨.inl rfl, fun _ heq => (Problem.tooNested.inj heq).symm, hc.lastStop_le_peek hscan⟩
  | succ levels ih =>
    exact fun least c hc hopen => Nested.accounts_readExpr hscan ih hc hopen
      (parseAt_fits hscan limit levels) (parseAt_leads limit levels)
      (parseAt_keepsParked limit levels) least

/-- Behind the expression, one report is made at the most. -/
theorem log_reportTrailing (c : Cursor) : ∃ trailing, c.reportTrailing.log = trailing ++ c.log ∧
    trailing.length ≤ 1 ∧ ∀ report ∈ trailing, ∃ kind, report.problem = .trailing kind := by
  unfold Cursor.reportTrailing Cursor.report
  split
  · exact ⟨[], rfl, Nat.zero_le _, nofun⟩
  · split
    · exact ⟨[], rfl, Nat.zero_le _, nofun⟩
    · exact ⟨[_], rfl, Nat.le_refl _, List.forall_mem_singleton.mpr ⟨_, rfl⟩⟩

/-- The reports of a reading of all tokens: those that explain its invalid nodes, and at the most
one behind the expression. -/
theorem exists_log_readAll (hscan : Ordered scan.tokensToEnd) (limit : Nat) :
    let found := readAll limit scan.tokens scan.stop
    ∃ made trailing, found.2.log.reverse = made ++ trailing ∧ trailing.length ≤ 1 ∧
      (∀ report ∈ trailing, ∃ kind, report.problem = .trailing kind) ∧
      (∀ report ∈ made, ∀ limit', report.problem = .tooNested limit' → limit' = limit) ∧
      (∀ report ∈ made, report.problem.missesExpr = true ∨
        ∃ opened kind, report.problem = .unclosed opened kind) ∧
      List.Forall₂ (Report.Explains scan)
        (made.filter (·.problem.missesExpr)) found.1.invalidSpans := by
  by_cases hnil : scan.tokens = []
  · rw [hnil, readAll_nil]
    refine ⟨[⟨.emptyExpression, .point scan.stop⟩], [], rfl, Nat.zero_le _, nofun, ?_, ?_, ?_⟩
    · exact List.forall_mem_singleton.mpr nofun
    · exact List.forall_mem_singleton.mpr (.inl rfl)
    · exact .cons (.inl rfl) .nil
  · rw [readAll_of_ne_nil _ _ hnil]
    intro found
    obtain ⟨made, h⟩ := parseAt_accounts hscan limit limit 0 _ (Cursor.at_start scan) rfl
    obtain ⟨trailing, hlog, hlength, htrailing⟩ := log_reportTrailing
      ((parseAt limit limit).read 0 { rest := scan.tokens, stop := scan.stop }).2
    have hreading {report : Report} (hmem : report ∈ made.reverse) :=
      h.ofReading report (List.mem_reverse.mp hmem)
    refine ⟨made.reverse, trailing.reverse, ?_, ?_, fun report hmem => ?_,
      fun report hmem => (hreading hmem).limit, fun report hmem => (hreading hmem).problem,
      h.explains⟩
    · rw [hlog, h.log_eq, List.append_nil, List.reverse_append]
    · rwa [List.length_reverse]
    · exact htrailing report (List.mem_reverse.mp hmem)

end Expr

namespace Analysis

/-- Invalid nodes and reports correspond. On a text that scans without a fault, the reports that say
that an expression is missing, or that the nesting limit is met, explain the invalid nodes of the
tree from left to right, one for one. Besides them there are only reports on groups that are not
closed, and at the most one, the last, on what stands behind the expression. Without a diagnostic,
no node is invalid. -/
theorem invalid_nodes_reported {text : String} (h : (Scan.ofText text).fault = none)
    (nesting : Nat) :
    let analysis := ofText nesting text
    List.Forall₂ (Report.Explains (Scan.ofText text))
      (analysis.reports.filter fun report => report.toDiagnostic.missesExpr nesting)
      analysis.tree.invalidSpans ∧
    (∃ made trailing, analysis.diagnostics = made ++ trailing ∧ trailing.length ≤ 1 ∧
      (∀ d ∈ made, d.missesExpr nesting = true ∨
        ∃ kind : Token.Kind, d.message = "expected ')', found " ++ kind.describe) ∧
      ∀ d ∈ trailing, ∃ kind : Token.Kind,
        d.message = "unexpected " ++ kind.describe ++ " after expression") ∧
    (analysis.diagnostics = [] → ∀ span, .invalid span ∉ analysis.tree.postorder) := by
  intro analysis
  have hreports : analysis.reports =
      (Expr.readAll nesting (Scan.ofText text).tokens (Scan.ofText text).stop).2.log.reverse := by
    show (ofText nesting text).reports = _
    unfold ofText ofScan
    rw [h, Expr.parse_eq]
    rfl
  obtain ⟨made, trailing, hlog, hlength, htrailing, hlimit, hmade, hexplains⟩ :=
    Expr.exists_log_readAll (Scan.ordered_ofText text) nesting
  rw [hlog] at hreports
  have hwords : made.filter (·.toDiagnostic.missesExpr nesting) =
      made.filter (·.problem.missesExpr) :=
    List.filter_congr fun report hmem => Report.missesExpr_toDiagnostic (hlimit report hmem)
  have hother : trailing.filter (·.toDiagnostic.missesExpr nesting) = [] :=
    List.filter_eq_nil_iff.mpr fun report hmem => by
      obtain ⟨kind, hkind⟩ := htrailing report hmem
      rw [Report.missesExpr_toDiagnostic (by rw [hkind]; nofun), hkind]
      exact Bool.false_ne_true
  have hexplained : List.Forall₂ (Report.Explains (Scan.ofText text))
      (analysis.reports.filter (·.toDiagnostic.missesExpr nesting)) analysis.tree.invalidSpans := by
    rw [hreports, List.filter_append, hwords, hother, List.append_nil]
    exact hexplains
  refine ⟨hexplained, ⟨made.map Report.toDiagnostic, trailing.map Report.toDiagnostic, ?_, ?_,
    fun d hd => ?_, fun d hd => ?_⟩, fun hnone span hmem => ?_⟩
  · rw [diagnostics, hreports, List.map_append]
  · rwa [List.length_map]
  · obtain ⟨report, hreport, rfl⟩ := List.mem_map.mp hd
    rw [Report.missesExpr_toDiagnostic (hlimit report hreport)]
    refine (hmade report hreport).imp_right fun ⟨opened, kind, hkind⟩ => ⟨kind, ?_⟩
    exact congrArg Problem.message hkind
  · obtain ⟨report, hreport, rfl⟩ := List.mem_map.mp hd
    obtain ⟨kind, hkind⟩ := htrailing report hreport
    exact ⟨kind, congrArg Problem.message hkind⟩
  · rw [List.map_eq_nil_iff.mp hnone] at hexplained
    have hnil := List.forall₂_nil_left_iff.mp hexplained
    nomatch hnil ▸ Expr.mem_invalidSpans.mpr hmem

/-- The empty group and the difference miss an operand each. That the second group is not closed has
no node of its own. -/
theorem invalid_nodes_reported_group :
    let scan := Scan.ofText "() * (1 - "
    let analysis := ofText 8 "() * (1 - "
    let missing := analysis.reports.filter fun report => report.toDiagnostic.missesExpr 8
    scan.fault = none ∧ analysis.reports.length = 3 ∧
      missing = [⟨.expectedOperand .closeParen, ⟨1, 2⟩⟩, ⟨.missingRight .sub, ⟨8, 9⟩⟩] ∧
      analysis.tree.invalidSpans = [⟨0, 2⟩, .point 9] ∧
      List.Forall₂ (Report.Explains scan) missing analysis.tree.invalidSpans := by
  intro scan analysis missing
  have hfault : scan.fault = none := by decide +kernel
  exact ⟨hfault, by decide +kernel, by decide +kernel, by decide +kernel,
    (invalid_nodes_reported hfault 8).1⟩

end Analysis

end Calculator

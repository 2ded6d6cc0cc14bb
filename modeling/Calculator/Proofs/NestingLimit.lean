import Calculator.Proofs.Fault
import Calculator.Proofs.Reading

/-!
# What the limits change

Two readings of the same tokens under different nesting limits go on alike until the lower limit is
met. From there on the lower reading reports nothing, while the other one only adds to its log. So a
limit cuts off what is reported, and changes nothing in front of that.

* `Cursor.CutOff`: a cursor that has met the limit, against one that has gone on.
* `Nested.Agrees`: readings from the same cursor are equal, or the lower one is cut off. Each part
  of the parser keeps this; `parseAt_agrees` says it of every two limits.
* `Limits.limits_only_cut_off`: what a raised limit changes, in the text and in the evaluation.
-/

namespace Calculator

namespace Cursor

/-- The limit is not met, and nothing is reported about it. -/
structure Open (c : Cursor) : Prop where
  halted : c.halted = false
  log : ∀ report ∈ c.log, ∀ limit, report.problem ≠ .tooNested limit

/-- The cursor `c` has met the limit. This is its last report, and the reports before it were made
on the way to `c'` as well. -/
structure CutOff (limit : Nat) (c c' : Cursor) : Prop where
  halted : c.halted = true
  log : ∃ span log, c.log = ⟨.tooNested limit, span⟩ :: log ∧ log <:+ c'.log ∧
    ∀ report ∈ log, ∀ limit', report.problem ≠ .tooNested limit'

theorem Open.advance {c : Cursor} (h : c.Open) : c.advance.Open :=
  ⟨c.halted_advance.trans h.halted, by rw [log_advance]; exact h.log⟩

theorem Open.report {c : Cursor} (h : c.Open) {problem : Problem}
    (hproblem : ∀ limit, problem ≠ .tooNested limit) (span : Span) :
    (c.report problem span).Open := by
  rw [report_of_not_halted h.halted]
  exact ⟨h.halted, List.forall_mem_cons.mpr ⟨hproblem, h.log⟩⟩

theorem Open.skipPastClose {c : Cursor} (h : c.Open) : c.skipPastClose.Open := ⟨h.halted, h.log⟩

/-- The reading that is cut off stays silent, and the other one adds to its log. -/
theorem CutOff.mono {limit : Nat} {c c' d d' : Cursor} (h : CutOff limit c c') (hc : c.Leads d)
    (hc' : c'.Leads d') : CutOff limit d d' := by
  obtain ⟨span, log, hlog, hsuffix, hother⟩ := h.log
  exact ⟨hc.halted h.halted, span, log, (hc.silent h.halted).trans hlog,
    hsuffix.trans hc'.log_suffix, hother⟩

/-- At the limit, a reading is cut off against every other one. -/
theorem Open.cutOff_halt {c d : Cursor} (h : c.Open) (limit : Nat) (hd : c.Leads d) :
    CutOff limit (c.halt limit) d := by
  refine ⟨rfl, c.peek.span, c.log, ?_, hd.log_suffix, h.log⟩
  show (c.report (.tooNested limit) c.peek.span).log = _
  rw [report_of_not_halted h.halted]

end Cursor

namespace Expr

/-- Two readings are equal and the limit is not met, or the first one is cut off. -/
def Agree (limit : Nat) (found found' : Expr × Cursor) : Prop :=
  (found = found' ∧ found.2.Open) ∨ Cursor.CutOff limit found.2 found'.2

namespace Nested

/-- Readings from the same cursor agree as far as the first one goes. -/
def Agrees (limit : Nat) (inner inner' : Nested) : Prop :=
  ∀ (least : Nat) (c : Cursor), c.Open → Agree limit (inner.read least c) (inner'.read least c)

variable {limit : Nat} {inner inner' : Nested} (h : Agrees limit inner inner') {c : Cursor}
  (hc : c.Open)
include h hc

theorem agree_readSigned (sign : Sign) :
    Agree limit (inner.readSigned sign c) (inner'.readSigned sign c) := by
  cases hs : c.advance.peek.kind.startsExpr with
  | true =>
    rw [inner.readSigned_of_starts hs, inner'.readSigned_of_starts hs]
    rcases h Sign.binding c.advance hc.advance with ⟨heq, hopen⟩ | hcut
    · rw [← heq]
      exact .inl ⟨rfl, hopen⟩
    · exact .inr hcut
  | false =>
    rw [inner.readSigned_of_not_starts hs, inner'.readSigned_of_not_starts hs]
    exact .inl ⟨rfl, hc.advance.report (by nofun) _⟩

theorem agree_readRight (op : BinaryOp) :
    Agree limit (inner.readRight op c) (inner'.readRight op c) := by
  cases hs : c.advance.peek.kind.startsExpr with
  | true =>
    rw [inner.readRight_of_starts hs, inner'.readRight_of_starts hs]
    exact h _ _ hc.advance
  | false =>
    rw [inner.readRight_of_not_starts hs, inner'.readRight_of_not_starts hs]
    exact .inl ⟨rfl, hc.advance.report (by nofun) _⟩

theorem agree_readGroup : Agree limit (inner.readGroup c) (inner'.readGroup c) := by
  rcases h 0 c.advance hc.advance with ⟨heq, hopen⟩ | hcut
  · have hgroup : inner.readGroup c = inner'.readGroup c := by
      unfold readGroup
      rw [heq]
    refine .inl ⟨hgroup, ?_⟩
    by_cases hclose : (inner.read 0 c.advance).2.peek.kind = .closeParen
    · rw [inner.readGroup_of_closed hclose]
      exact hopen.advance
    · rw [inner.readGroup_of_not_closed hclose]
      exact (hopen.report (by nofun) _).skipPastClose
  · exact .inr (hcut.mono (inner.leads_content c) (inner'.leads_content c))

theorem agree_readOperand : Agree limit (inner.readOperand c) (inner'.readOperand c) := by
  unfold readOperand
  dsimp only
  split
  · exact .inl ⟨rfl, hc.advance⟩
  · exact agree_readSigned h hc .plus
  · exact agree_readSigned h hc .minus
  · exact agree_readGroup h hc
  · exact .inl ⟨rfl, hc.report (by nofun) _⟩

omit hc in
/-- The loops take the same operators until the first one is cut off. -/
theorem agree_climb (hleads : inner.Leads) (hleads' : inner'.Leads) (least : Nat) (left : Expr)
    (c : Cursor) (hc : c.Open) :
    Agree limit (inner.climb least left c) (inner'.climb least left c) := by
  fun_induction inner.climb least left c with
  | case1 left c hop =>
    rw [inner'.climb_of_none left hop]
    exact .inl ⟨rfl, hc⟩
  | case2 left c op hop hlt =>
    rw [inner'.climb_of_lt left hop hlt]
    exact .inl ⟨rfl, hc⟩
  | case3 left c op hop hle right hlt ih =>
    rw [inner'.climb_of_le left hop (Nat.not_lt.mp hle)]
    rcases agree_readRight h hc op with ⟨heq, hopen⟩ | hcut
    · rw [← heq]
      exact ih hopen
    · exact .inr (hcut.mono (leads_climb hleads ..) (leads_climb hleads' ..))

theorem agree_readExpr (hleads : inner.Leads) (hleads' : inner'.Leads) (least : Nat) :
    Agree limit (inner.readExpr least c) (inner'.readExpr least c) := by
  unfold readExpr
  dsimp only
  rcases agree_readOperand h hc with ⟨heq, hopen⟩ | hcut
  · rw [← heq]
    exact agree_climb h hleads hleads' least _ _ hopen
  · exact .inr (hcut.mono (leads_climb hleads ..) (leads_climb hleads' ..))

end Nested

/-- With more levels left, the reading agrees as far as the one with fewer goes. -/
theorem parseAt_agrees (limit limit' : Nat) {levels levels' : Nat} (hle : levels ≤ levels') :
    Nested.Agrees limit (parseAt limit levels) (parseAt limit' levels') := by
  induction levels generalizing levels' with
  | zero =>
    exact fun least c hc => .inr (hc.cutOff_halt limit (parseAt_leads limit' levels' least c))
  | succ levels ih =>
    obtain ⟨levels', rfl⟩ := Nat.exists_eq_add_of_le' hle
    exact fun least c hc => Nested.agree_readExpr (ih (Nat.le_add_left ..)) hc
      (parseAt_leads limit levels) (parseAt_leads limit' _) least

/-- Readings of all tokens agree as far as the lower limit goes. -/
theorem agree_readAll {limit limit' : Nat} (hle : limit ≤ limit') (tokens : List Token)
    (stop : Nat) : Agree limit (readAll limit tokens stop) (readAll limit' tokens stop) := by
  have hstart : ({ rest := tokens, stop } : Cursor).Open := ⟨rfl, nofun⟩
  by_cases hnil : tokens = []
  · subst hnil
    rw [readAll_nil, readAll_nil]
    exact .inl ⟨rfl, hstart.report (by nofun) _⟩
  · rw [readAll_of_ne_nil _ _ hnil, readAll_of_ne_nil _ _ hnil]
    rcases parseAt_agrees limit limit' hle 0 _ hstart with ⟨heq, hopen⟩ | hcut
    · rw [← heq]
      refine .inl ⟨rfl, ?_⟩
      unfold Cursor.reportTrailing
      split
      · exact hopen
      · exact hopen.report (by nofun) _
    · exact .inr (hcut.mono (Cursor.leads_reportTrailing _) (Cursor.leads_reportTrailing _))

end Expr

/-! ## The words of a report -/

namespace Problem

/-- Only the words for the nesting limit start as they do. -/
theorem exists_message_eq {problem : Problem} (h : ∀ limit, problem ≠ .tooNested limit) :
    ∃ front back : String, problem.message = front ++ back ∧ 4 ≤ front.toList.length ∧
      front.toList.take 4 ≠ ['e', 'x', 'p', 'r'] := by
  cases problem with
  | unexpectedChar c =>
    exact ⟨"unexpected char '", c.toString ++ "'", String.append_assoc, by decide, by decide⟩
  | emptyExpression =>
    exact ⟨"empty expression", "", String.append_empty.symm, by decide, by decide⟩
  | expectedOperand found => exact ⟨"expected expression, found ", _, rfl, by decide, by decide⟩
  | missingRight op =>
    exact ⟨"expected expression after '", op.symbol ++ "'", String.append_assoc, by decide,
      by decide⟩
  | missingSigned sign =>
    exact ⟨"expected expression after unary '", sign.symbol ++ "'", String.append_assoc, by decide,
      by decide⟩
  | unclosed opened found => exact ⟨"expected ')', found ", _, rfl, by decide, by decide⟩
  | trailing found =>
    exact ⟨"unexpected ", found.describe ++ " after expression", String.append_assoc, by decide,
      by decide⟩
  | tooNested limit => exact absurd rfl (h limit)

/-- The words for the nesting limit are those of no other problem. -/
theorem message_ne_tooNested {problem : Problem} (h : ∀ limit, problem ≠ .tooNested limit)
    (limit : Nat) : problem.message ≠ (tooNested limit).message := by
  obtain ⟨front, back, hmessage, hlength, hfront⟩ := exists_message_eq h
  intro heq
  have hlimit : (tooNested limit).message =
      "expression nested too deeply (limit " ++ (toString limit ++ ")") := String.append_assoc
  have htake := congrArg (fun s : String => s.toList.take 4)
    (hmessage.symm.trans (heq.trans hlimit))
  simp only [String.toList_append, List.take_append_of_le_length hlength] at htake
  rw [List.take_append_of_le_length (by decide)] at htake
  exact hfront htake

end Problem

namespace Limits

/-- A reading that does not meet the limit is the same under every higher one. -/
theorem ofText_eq_of_not_meetsLimit {nesting nesting' : Nat} {text : String}
    (hle : nesting ≤ nesting') (h : ¬ (Scan.ofText text).MeetsLimit nesting) :
    Analysis.ofText nesting' text = Analysis.ofText nesting text := by
  rcases Expr.agree_readAll hle (Scan.ofText text).tokens (Scan.ofText text).stop with
    ⟨heq, -⟩ | hcut
  · unfold Analysis.ofText Analysis.ofScan
    rw [Expr.parse_eq, Expr.parse_eq, heq]
  · exact absurd hcut.halted h

/-- A reading that meets the limit reports this last, and before it what is reported first under
every higher limit. -/
theorem exists_diagnostics_eq {nesting nesting' : Nat} {text : String} (hle : nesting ≤ nesting')
    (h : (Scan.ofText text).MeetsLimit nesting) (hfault : (Scan.ofText text).fault = none) :
    ∃ before span, (Analysis.ofText nesting text).diagnostics =
        before ++ [⟨(Problem.tooNested nesting).message, span, []⟩] ∧
      (∀ d ∈ before, d.message ≠ (Problem.tooNested nesting).message) ∧
      before <+: (Analysis.ofText nesting' text).diagnostics := by
  rcases Expr.agree_readAll hle (Scan.ofText text).tokens (Scan.ofText text).stop with
    ⟨-, hopen⟩ | hcut
  · exact absurd (hopen.halted.symm.trans h) nofun
  · obtain ⟨span, log, hlog, hsuffix, hother⟩ := hcut.log
    refine ⟨log.reverse.map Report.toDiagnostic, span, ?_, ?_, ?_⟩
    · rw [Analysis.diagnostics_ofText hfault, hlog, List.reverse_cons, List.map_append]
      rfl
    · intro d hd
      obtain ⟨report, hreport, rfl⟩ := List.mem_map.mp hd
      exact Problem.message_ne_tooNested (hother report (List.mem_reverse.mp hreport)) nesting
    · rw [Analysis.diagnostics_ofText hfault]
      exact (List.reverse_prefix.mpr hsuffix).map _

/-- An evaluation that does not stop at its limit is the same under every higher one. -/
theorem evaluate_eq_of_le {limits limits' : Limits} {e : Expr} (hle : limits.depth ≤ limits'.depth)
    (h : ∀ depth limit, limits.evaluate e ≠ .error (.tooDeep depth limit)) :
    limits'.evaluate e = limits.evaluate e := by
  have hlevels := Nat.zero_add limits.depth
  rcases Expr.evalAt_eq_value_or hlevels e with hvalue | hlimit
  · exact (Expr.evalAt_eq_value_of_le hlevels hle (fun e => e.value_ne_tooDeep _ _) e hvalue).trans
      hvalue.symm
  · exact absurd hlimit (h _ _)

/-- Limits only cut off, they never change an answer. A text that is read without meeting the
nesting limit has the same tree and the same diagnostics under every higher limit. If the limit is
met, and the text scans without a fault, this is said once and last, and what is said before it is
what is said first under every higher limit. An evaluation that does not stop at the depth limit
gives the same under every higher one. -/
theorem limits_only_cut_off :
    (∀ (nesting nesting' : Nat) (text : String), nesting ≤ nesting' →
      (¬ (Scan.ofText text).MeetsLimit nesting →
        Analysis.ofText nesting' text = Analysis.ofText nesting text) ∧
      ((Scan.ofText text).MeetsLimit nesting → (Scan.ofText text).fault = none →
        let message := "expression nested too deeply (limit " ++ toString nesting ++ ")"
        ∃ before span,
          (Analysis.ofText nesting text).diagnostics = before ++ [⟨message, span, []⟩] ∧
          (∀ d ∈ before, d.message ≠ message) ∧
          before <+: (Analysis.ofText nesting' text).diagnostics)) ∧
    ∀ (limits limits' : Limits) (e : Expr), limits.depth ≤ limits'.depth →
      (∀ depth limit, limits.evaluate e ≠ .error (.tooDeep depth limit)) →
        limits'.evaluate e = limits.evaluate e :=
  ⟨fun _ _ _ hle => ⟨ofText_eq_of_not_meetsLimit hle, exists_diagnostics_eq hle⟩,
    fun _ _ _ => evaluate_eq_of_le⟩

/-- A group on the right of an operator is cut off, behind the report on the operand in front of it.
An invalid operand is met before the operand that nests too deep. -/
theorem limits_only_cut_off_group :
    let one : Expr := .number "1" (.point 0)
    let e : Expr := .binary .add (.point 0) (.invalid (.point 0))
      (.signed .minus (.signed .minus one (.point 0)) (.point 0)) (.point 0)
    Analysis.ofText 4 "*(1)" = Analysis.ofText 3 "*(1)" ∧
    (∃ before span, (Analysis.ofText 2 "*(1)").diagnostics =
        before ++ [⟨"expression nested too deeply (limit " ++ toString 2 ++ ")", span, []⟩] ∧
      (∀ d ∈ before, d.message ≠ "expression nested too deeply (limit " ++ toString 2 ++ ")") ∧
      before <+: (Analysis.ofText 3 "*(1)").diagnostics) ∧
    ({ depth := 5 } : Limits).evaluate e = ({ depth := 2 } : Limits).evaluate e := by
  intro one e
  have hmeets : (Scan.ofText "*(1)").MeetsLimit 2 := by decide +kernel
  have hnot : ¬ (Scan.ofText "*(1)").MeetsLimit 3 := by decide +kernel
  have hfault : (Scan.ofText "*(1)").fault = none := by decide +kernel
  have hvalue : ({ depth := 2 } : Limits).evaluate e =
      .error (.disallowed "invalid expression" (.point 0)) := rfl
  exact ⟨(limits_only_cut_off.1 3 4 "*(1)" (by decide)).1 hnot,
    (limits_only_cut_off.1 2 3 "*(1)" (by decide)).2 hmeets hfault,
    limits_only_cut_off.2 { depth := 2 } { depth := 5 } e (by decide) fun _ _ h =>
      nomatch hvalue.symm.trans h⟩

end Limits

end Calculator

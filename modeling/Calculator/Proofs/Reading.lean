import Calculator.Analysis
import Calculator.Proofs.Progress

/-!
# Where a reading ends

`Expr.readAll` reads all tokens as one expression and gives the cursor at which the reading ends, of
which `Expr.parse` shows the log alone. What is true of single readings is carried to the end here
once.

* `Expr.parse_eq`: a parse is a reading of all tokens.
* `Cursor.Leads.halted`: a cursor that has met the nesting limit stays halted.
* `Cursor.Parked`: a halted cursor stands at the end, which each part of the parser keeps.
* `Expr.Nested.StaysOpen`: a reading of few tokens is not halted. Each part of the parser keeps
  this, as every level is left with a token less.
* `Scan.MeetsLimit`: the reading of a text meets the nesting limit.
* `Analysis.diagnostics_ofText`: what is shown of a text is the log at the end.
-/

namespace Calculator

namespace Cursor

/-- A halted cursor stays halted. -/
theorem Leads.halted {c c' : Cursor} (h : c.Leads c') (hc : c.halted = true) :
    c'.halted = true := by
  rw [h.halted_eq (h.silent hc), hc]

/-- In front of a cursor that is not halted there is no halted one. -/
theorem Leads.not_halted {c c' : Cursor} (h : c.Leads c') (hc' : c'.halted = false) :
    c.halted = false :=
  Bool.eq_false_iff.mpr fun hc => nomatch hc'.symm.trans (h.halted hc)

/-- The cursor at the end of an expression, with a report on the token behind it if there is one. -/
def reportTrailing (c : Cursor) : Cursor :=
  if c.peek.kind = .finish then c else c.report (.trailing c.peek.kind) c.peek.span

theorem leads_reportTrailing (c : Cursor) : c.Leads c.reportTrailing := by
  unfold reportTrailing
  split
  · exact .refl c
  · exact leads_report ..

/-- If the cursor is halted, it stands at the end. -/
def Parked (c : Cursor) : Prop := c.halted = true → c.rest = []

theorem Parked.of_leads {c c' : Cursor} (h : c.Parked) (hleads : c.Leads c')
    (heq : c'.halted = c.halted) : c'.Parked := fun hc' => by
  have hsuffix := hleads.rest_suffix
  rw [h (heq ▸ hc')] at hsuffix
  exact List.suffix_nil.mp hsuffix

theorem Parked.advance {c : Cursor} (h : c.Parked) : c.advance.Parked :=
  h.of_leads c.leads_advance c.halted_advance

theorem Parked.report {c : Cursor} (h : c.Parked) (problem : Problem) (span : Span) :
    (c.report problem span).Parked :=
  h.of_leads (c.leads_report problem span) (c.halted_report problem span)

theorem Parked.skipPastClose {c : Cursor} (h : c.Parked) : c.skipPastClose.Parked :=
  h.of_leads c.leads_skipPastClose rfl

/-- Where an operator is next, the cursor is not halted. -/
theorem Parked.not_halted {c : Cursor} (h : c.Parked) {op : BinaryOp}
    (kind : c.peek.kind.binaryOp? = some op) : c.halted = false :=
  Bool.eq_false_iff.mpr fun hc => nomatch (h hc).symm.trans (rest_eq_cons_of_binaryOp? kind)

end Cursor

namespace Expr

/-- Reads all tokens of a text of `stop` bytes as one expression: its tree, and the cursor at which
the reading ends. -/
def readAll (limit : Nat) (tokens : List Token) (stop : Nat) : Expr × Cursor :=
  let start : Cursor := { rest := tokens, stop }
  let found :=
    if tokens.isEmpty then (invalid (.point stop), start.report .emptyExpression (.point stop))
    else (parseAt limit limit).read 0 start
  (found.1, found.2.reportTrailing)

variable (limit stop : Nat) (tokens : List Token)

/-- A parse is a reading of all tokens; it gives the log of the cursor at the end. -/
theorem parse_eq : parse limit tokens stop =
    ((readAll limit tokens stop).1, (readAll limit tokens stop).2.log.reverse) :=
  rfl

theorem readAll_nil : readAll limit [] stop = (invalid (.point stop),
    ({ rest := [], stop } : Cursor).report .emptyExpression (.point stop)) :=
  rfl

theorem readAll_of_ne_nil {tokens : List Token} (h : tokens ≠ []) : readAll limit tokens stop =
    (((parseAt limit limit).read 0 { rest := tokens, stop }).1,
      ((parseAt limit limit).read 0 { rest := tokens, stop }).2.reportTrailing) := by
  unfold readAll
  dsimp only
  rw [if_neg (by rwa [List.isEmpty_iff])]

/-! ## Halted readings -/

namespace Nested

/-- A reading that is halted ends at the end of the text. -/
def KeepsParked (inner : Nested) : Prop :=
  ∀ (least : Nat) (c : Cursor), c.Parked → (inner.read least c).2.Parked

variable {inner : Nested} (h : inner.KeepsParked) {c : Cursor} (hc : c.Parked)
include h hc

theorem parked_readSigned (sign : Sign) : (inner.readSigned sign c).2.Parked := by
  cases hs : c.advance.peek.kind.startsExpr with
  | true =>
    rw [inner.readSigned_of_starts hs]
    exact h _ _ hc.advance
  | false =>
    rw [inner.readSigned_of_not_starts hs]
    exact hc.advance.report _ _

theorem parked_readRight (op : BinaryOp) : (inner.readRight op c).2.Parked := by
  cases hs : c.advance.peek.kind.startsExpr with
  | true =>
    rw [inner.readRight_of_starts hs]
    exact h _ _ hc.advance
  | false =>
    rw [inner.readRight_of_not_starts hs]
    exact hc.advance.report _ _

theorem parked_readGroup : (inner.readGroup c).2.Parked := by
  have hcontent := h 0 _ hc.advance
  by_cases hclose : (inner.read 0 c.advance).2.peek.kind = .closeParen
  · rw [inner.readGroup_of_closed hclose]
    exact hcontent.advance
  · rw [inner.readGroup_of_not_closed hclose]
    exact (hcontent.report _ _).skipPastClose

theorem parked_readOperand : (inner.readOperand c).2.Parked :=
  inner.readOperand_cases (motive := fun found => found.2.Parked) (fun _ => hc.advance)
    (fun sign _ => parked_readSigned h hc sign) (fun _ => parked_readGroup h hc)
    fun _ => hc.report _ _

omit hc in
theorem parked_climb (least : Nat) (left : Expr) (c : Cursor) (hc : c.Parked) :
    (inner.climb least left c).2.Parked := by
  fun_induction inner.climb least left c with
  | case1 | case2 => exact hc
  | case3 left c op hop hle right hlt ih => exact ih (parked_readRight h hc op)

theorem parked_readExpr (least : Nat) : (inner.readExpr least c).2.Parked :=
  parked_climb h least _ _ (parked_readOperand h hc)

end Nested

theorem parseAt_keepsParked (limit levels : Nat) : (parseAt limit levels).KeepsParked := by
  induction levels with
  | zero => exact fun least c _ _ => c.rest_halt limit
  | succ levels ih => exact fun least c hc => Nested.parked_readExpr ih hc least

/-! ## Enough levels -/

namespace Nested

/-- A reading of fewer tokens than there are levels is not halted. -/
def StaysOpen (inner : Nested) (levels : Nat) : Prop :=
  ∀ (least : Nat) (c : Cursor), c.halted = false → c.rest.length < levels →
    (inner.read least c).2.halted = false

variable {inner : Nested} {levels : Nat} (h : inner.StaysOpen levels) {c : Cursor}
  (hc : c.halted = false) (hlength : c.rest.length ≤ levels)
include h hc hlength

theorem halted_readSigned {sign : Sign} (kind : c.peek.kind.sign? = some sign) :
    (inner.readSigned sign c).2.halted = false := by
  have hlt : c.advance.rest.length < c.rest.length :=
    Cursor.rest_length_advance_lt (Token.Kind.ne_finish_of_sign? kind)
  cases hs : c.advance.peek.kind.startsExpr with
  | true =>
    rw [inner.readSigned_of_starts hs]
    exact h _ _ (c.halted_advance.trans hc) (Nat.lt_of_lt_of_le hlt hlength)
  | false =>
    rw [inner.readSigned_of_not_starts hs, Cursor.halted_report, Cursor.halted_advance, hc]

theorem halted_readRight {op : BinaryOp} (kind : c.peek.kind.binaryOp? = some op) :
    (inner.readRight op c).2.halted = false := by
  have hlt : c.advance.rest.length < c.rest.length :=
    Cursor.rest_length_advance_lt (Token.Kind.ne_finish_of_binaryOp? kind)
  cases hs : c.advance.peek.kind.startsExpr with
  | true =>
    rw [inner.readRight_of_starts hs]
    exact h _ _ (c.halted_advance.trans hc) (Nat.lt_of_lt_of_le hlt hlength)
  | false =>
    rw [inner.readRight_of_not_starts hs, Cursor.halted_report, Cursor.halted_advance, hc]

theorem halted_readGroup (kind : c.peek.kind = .openParen) :
    (inner.readGroup c).2.halted = false := by
  have hlt : c.advance.rest.length < c.rest.length :=
    Cursor.rest_length_advance_lt (by rw [kind]; nofun)
  have hcontent := h 0 c.advance (c.halted_advance.trans hc) (Nat.lt_of_lt_of_le hlt hlength)
  by_cases hclose : (inner.read 0 c.advance).2.peek.kind = .closeParen
  · rw [inner.readGroup_of_closed hclose, Cursor.halted_advance, hcontent]
  · rw [inner.readGroup_of_not_closed hclose]
    exact (Cursor.halted_report ..).trans hcontent

theorem halted_readOperand : (inner.readOperand c).2.halted = false := by
  refine inner.readOperand_cases (motive := fun found => found.2.halted = false)
    (fun _ => c.halted_advance.trans hc) (fun sign kind => halted_readSigned h hc hlength kind)
    (fun kind => halted_readGroup h hc hlength kind) fun _ => ?_
  exact (Cursor.halted_report ..).trans hc

omit hc hlength in
theorem halted_climb (least : Nat) (left : Expr) (c : Cursor) (hc : c.halted = false)
    (hlength : c.rest.length ≤ levels) : (inner.climb least left c).2.halted = false := by
  fun_induction inner.climb least left c with
  | case1 | case2 => exact hc
  | case3 left c op hop hle right hlt ih =>
    exact ih (halted_readRight h hc hlength hop) (Nat.le_trans (Nat.le_of_lt hlt) hlength)

theorem halted_readExpr (least : Nat) : (inner.readExpr least c).2.halted = false :=
  halted_climb h least _ _ (halted_readOperand h hc hlength)
    (Nat.le_trans (inner.length_readOperand_le c) hlength)

end Nested

theorem parseAt_staysOpen (limit levels : Nat) : (parseAt limit levels).StaysOpen levels := by
  induction levels with
  | zero => exact fun least c _ hlength => absurd hlength (Nat.not_lt_zero _)
  | succ levels ih =>
    exact fun least c hc hlength => Nested.halted_readExpr ih hc (Nat.le_of_lt_succ hlength) least

/-- Fewer tokens than there are levels never meet the limit. -/
theorem halted_readAll {limit : Nat} {tokens : List Token} (stop : Nat)
    (hlength : tokens.length < limit) : (readAll limit tokens stop).2.halted = false := by
  by_cases hnil : tokens = []
  · subst hnil
    rfl
  · rw [readAll_of_ne_nil _ _ hnil]
    have hopen := parseAt_staysOpen limit limit 0 { rest := tokens, stop } rfl hlength
    unfold Cursor.reportTrailing
    split
    · exact hopen
    · exact (Cursor.halted_report ..).trans hopen

end Expr

/-- The reading of the text meets the nesting limit. -/
def Scan.MeetsLimit (nesting : Nat) (scan : Scan) : Prop :=
  (Expr.readAll nesting scan.tokens scan.stop).2.halted = true

instance (nesting : Nat) (scan : Scan) : Decidable (scan.MeetsLimit nesting) :=
  inferInstanceAs (Decidable (_ = _))

/-- Without a fault, what is shown of a text is the log at the end of the reading. -/
theorem Analysis.diagnostics_ofText {text : String} (h : (Scan.ofText text).fault = none)
    (nesting : Nat) : (Analysis.ofText nesting text).diagnostics =
      (Expr.readAll nesting (Scan.ofText text).tokens (Scan.ofText text).stop).2.log.reverse.map
        Report.toDiagnostic := by
  unfold diagnostics ofText ofScan
  rw [h, Expr.parse_eq]
  rfl

end Calculator

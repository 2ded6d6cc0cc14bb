import Calculator.Proofs.Containment
import Calculator.Proofs.FirstReport
import Calculator.Proofs.RenderedDiagnostics
import Calculator.Proofs.Steps

/-!
# Diagnostics in the order of the text

Diagnostics are recorded in the order of their spans. Each step of a reading reports on the token
that was the next one, if anything, and the steps lead from token to token; so no report is made on
a token in front of one that was reported on. An operator may be reported twice, as one that is
found in the place of an operand and as one that misses its own.

* `Span.ends`: the order of spans.
* `Cursor.InOrder`: the reports made so far stand in the order of the text, and none behind the next
  token. `Cursor.InOrder.step` says that a step keeps this, and `Cursor.InOrder.steps` that a
  reading does.
* `Diagnostic.map_span_sorted`: diagnostics that are in order already change places only with those
  that have the same span.
* `Analysis.diagnostics_in_order`: the diagnostics on a text.
-/

namespace Calculator

open Grammar

/-- What spans are ordered by: where they start, and then where they end. -/
def Span.ends (span : Span) : Nat ×ₗ Nat := toLex (span.start, span.stop)

theorem Span.ends_inj {a b : Span} : a.ends = b.ends ↔ a = b := by
  rw [ends, ends, EmbeddingLike.apply_eq_iff_eq, Prod.mk.injEq]
  exact (Span.mk.injEq ..).to_iff.symm

/-- A token that stands behind another one comes no earlier in the order. -/
theorem Span.ends_le_ends {a b : Span} (ha : a.start ≤ a.stop) (hab : a.stop ≤ b.start)
    (hb : b.start ≤ b.stop) : a.ends ≤ b.ends := by
  rw [ends, ends, Prod.Lex.toLex_le_toLex]
  dsimp only
  omega

/-! ## Readings -/

namespace Cursor

variable {scan : Scan} {limit : Nat} {c c' : Cursor}

theorem Step.at_cursor (h : Step limit c c') (hc : c.At scan) : c'.At scan := by
  cases h with
  | advance => exact hc.advance
  | report problem => exact hc.report _ _
  | missing problem => exact hc.advance.report _ _
  | skipPastClose => exact hc.skipPastClose
  | halt => exact hc.halt limit

/-- The tokens ahead follow each other. -/
theorem At.ordered_ahead (hscan : Ordered scan.tokensToEnd) (hc : c.At scan) :
    Ordered (c.rest ++ [.finish c.stop]) := by
  obtain ⟨front, htokens, -⟩ := hc.exists_front
  refine hscan.sublist ?_
  rw [Scan.tokensToEnd, htokens, hc.stop_eq, List.append_assoc]
  exact List.sublist_append_right ..

/-- The next token of a cursor further on is the same or stands behind. -/
theorem At.peek_ends_le (hscan : Ordered scan.tokensToEnd) (hc : c.At scan) (hc' : c'.At scan)
    (hrest : c'.rest <:+ c.rest) : c.peek.span.ends ≤ c'.peek.span.ends := by
  have hordered := hc.ordered_ahead hscan
  obtain ⟨ahead, hahead⟩ := c.exists_ahead
  obtain ⟨ahead', hahead'⟩ := c'.exists_ahead
  obtain ⟨passed, hpassed⟩ := hrest
  have hmem : c'.peek ∈ c.peek :: ahead := by
    rw [← hahead, ← hpassed, List.append_assoc, hc.stop_eq, ← hc'.stop_eq, hahead']
    exact List.mem_append_right _ List.mem_cons_self
  rw [hahead] at hordered
  rcases List.mem_cons.mp hmem with heq | hbehind
  · rw [heq]
  · exact Span.ends_le_ends (hordered.start_le_stop _ List.mem_cons_self)
      ((List.pairwise_cons.mp hordered.pairwise).1 _ hbehind) (hordered.start_le_stop _ hmem)

/-- The reports made so far stand in the order of the text, the last one first, and none of them
behind the next token. -/
structure InOrder (c : Cursor) : Prop where
  pairwise : c.log.Pairwise fun later earlier => earlier.span.ends ≤ later.span.ends
  le_peek : ∀ report ∈ c.log, report.span.ends ≤ c.peek.span.ends

theorem InOrder.step (hscan : Ordered scan.tokensToEnd) (h : c.InOrder) (hc : c.At scan)
    (hstep : Step limit c c') : c'.InOrder := by
  have hpeek := hc.peek_ends_le hscan (hstep.at_cursor hc) hstep.leads.rest_suffix
  rcases hstep.log_eq_or with hlog | ⟨problem, hlog⟩
  · refine ⟨hlog ▸ h.pairwise, fun report hmem => ?_⟩
    exact le_trans (h.le_peek report (hlog ▸ hmem)) hpeek
  · refine ⟨?_, fun report hmem => ?_⟩
    · rw [hlog]
      exact .cons h.le_peek h.pairwise
    · rw [hlog] at hmem
      rcases List.mem_cons.mp hmem with rfl | hmem
      · exact hpeek
      · exact le_trans (h.le_peek report hmem) hpeek

theorem InOrder.steps (hscan : Ordered scan.tokensToEnd) (h : c.InOrder) (hc : c.At scan)
    (hsteps : Steps limit c c') : c'.InOrder ∧ c'.At scan := by
  induction hsteps with
  | refl => exact ⟨h, hc⟩
  | tail _ hstep ih => exact ⟨ih.1.step hscan ih.2 hstep, hstep.at_cursor ih.2⟩

/-- A reading from the first token on, as far as it comes, reports in order. -/
theorem inOrder_of_steps (hscan : Ordered scan.tokensToEnd)
    (h : Steps limit { rest := scan.tokens, stop := scan.stop } c) : c.InOrder :=
  (InOrder.steps hscan ⟨.nil, List.forall_mem_nil _⟩ (at_start scan) h).1

end Cursor

/-! ## Diagnostics -/

namespace Diagnostic

/-- The order in which diagnostics are shown is one of their spans first. -/
theorem Before.ends_le {a b : Diagnostic} (h : a.Before b) : a.span.ends ≤ b.span.ends := by
  rw [Span.ends, Span.ends, Prod.Lex.toLex_le_toLex]
  rcases h with hlt | ⟨heq, hlt | ⟨heq', -⟩⟩
  · exact .inl hlt
  · exact .inr ⟨heq, Nat.le_of_lt hlt⟩
  · exact .inr ⟨heq, Nat.le_of_eq heq'⟩

/-- Where diagnostics are in the order of their spans already, the sort leaves each place to one
with the same span. -/
theorem map_span_sorted {ds : List Diagnostic}
    (h : ds.Pairwise fun a b => a.span.ends ≤ b.span.ends) :
    (sorted ds).map (·.span) = ds.map (·.span) := by
  have hrecorded : (ds.map (·.span)).Pairwise fun a b => a.ends ≤ b.ends :=
    List.pairwise_map.mpr h
  have hshown : ((sorted ds).map (·.span)).Pairwise fun a b => a.ends ≤ b.ends :=
    List.pairwise_map.mpr ((pairwise_sorted ds).imp Before.ends_le)
  exact ((sorted_perm ds).map _).eq_of_pairwise
    (fun a b _ _ hab hba => Span.ends_inj.mp (le_antisymm hab hba)) hshown hrecorded

end Diagnostic

/-- A text that is not accepted has a diagnostic. -/
theorem Limits.diagnostics_ne_nil {limits : Limits} {text : String} {error : SyntaxError}
    (h : limits.parse text = .error error) : error.diagnostics ≠ [] := by
  have hdiagnostics := diagnostics_of_parse_eq_error h
  unfold parse at h
  dsimp only at h
  split at h
  · next hreports =>
    rw [hdiagnostics, Analysis.diagnostics, ne_eq, List.map_eq_nil_iff]
    simpa [Analysis.hasReports] using hreports
  · nomatch h

namespace Analysis

theorem pairwise_diagnostics (nesting : Nat) (text : String) :
    (ofText nesting text).diagnostics.Pairwise fun a b => a.span.ends ≤ b.span.ends := by
  cases hfault : (Scan.ofText text).fault with
  | some fault =>
    rw [diagnostics, ofText, ofScan, hfault]
    exact List.pairwise_singleton ..
  | none =>
    have horder := Cursor.inOrder_of_steps (Scan.ordered_ofText text)
      (Expr.steps_readAll nesting _ _)
    rw [diagnostics_ofText hfault]
    exact List.pairwise_map.mpr (List.pairwise_reverse.mpr horder.pairwise)

/-- The diagnostics on a text are recorded in the order of their spans. So the message of the error
is that of one that stands first in the text, and what is shown are the diagnostics in an order in
which each place has the span that it had before. -/
theorem diagnostics_in_order (nesting : Nat) (text : String) :
    let ds := (ofText nesting text).diagnostics
    ds.Pairwise (fun a b => a.span.ends ≤ b.span.ends) ∧
      (∀ limits : Limits, limits.nesting = nesting →
        ∀ error, limits.parse text = .error error → error.diagnostics = ds ∧
          ∃ first ∈ ds, error.message = "syntax error: " ++ first.message ∧
            ∀ d ∈ ds, first.span.ends ≤ d.span.ends) ∧
      ∃ ordered : List Diagnostic, ordered.Perm ds ∧
        ordered.map (·.span) = ds.map (·.span) ∧
        Diagnostic.renderAll text ds =
          String.join (ordered.map (Diagnostic.render (.ofText text))) := by
  intro ds
  have hpairwise : ds.Pairwise fun a b => a.span.ends ≤ b.span.ends :=
    pairwise_diagnostics nesting text
  refine ⟨hpairwise, ?_, Diagnostic.sorted ds, Diagnostic.sorted_perm ds,
    Diagnostic.map_span_sorted hpairwise, rfl⟩
  rintro limits rfl error h
  have hds : error.diagnostics = ds := Limits.diagnostics_of_parse_eq_error h
  obtain ⟨first, others, hfirst⟩ :=
    List.exists_cons_of_ne_nil (Limits.diagnostics_ne_nil h)
  have hmessage : error.message = "syntax error: " ++ first.message := by
    rw [SyntaxError.message, hfirst]
    rfl
  rw [hds] at hfirst
  rw [hfirst] at hpairwise ⊢
  refine ⟨hds.trans hfirst, first, List.mem_cons_self, hmessage, ?_⟩
  exact List.forall_mem_cons.mpr ⟨le_refl _, (List.pairwise_cons.mp hpairwise).1⟩

/-- An operator in the place of an operand, in a group that is not closed: it is reported twice,
first as found there and then as one that misses its operand, which is shown in the other order. -/
theorem diagnostics_in_order_operator :
    let error : SyntaxError := ⟨[⟨"expected expression, found `*`", ⟨1, 2⟩, []⟩,
      ⟨"expected expression after '*'", ⟨1, 2⟩, []⟩,
      ⟨"expected ')', found end of input", ⟨3, 3⟩, [⟨⟨0, 1⟩, "this '(' is not closed"⟩]⟩]⟩
    ({} : Limits).parse "(* " = .error error ∧
      ∃ first ∈ error.diagnostics, error.message = "syntax error: " ++ first.message ∧
        ∀ d ∈ error.diagnostics, first.span.ends ≤ d.span.ends := by
  intro error
  have herror : ({} : Limits).parse "(* " = .error error := by decide +kernel
  obtain ⟨-, hparse, -⟩ := diagnostics_in_order ({} : Limits).nesting "(* "
  obtain ⟨hds, hfirst⟩ := hparse {} rfl error herror
  rw [← hds] at hfirst
  exact ⟨herror, hfirst⟩

end Analysis

end Calculator

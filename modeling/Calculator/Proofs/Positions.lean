import Calculator.Proofs.Alphabet
import Calculator.Proofs.Calls

/-!
# Positions in a text

Every span that is found in a text can be cut out of it, whether the text is accepted or not: its
ends are in order and stand between two characters. So it is with the tokens and with the character
at which a scan gives up, and every other span starts at the end of one of these and ends at the end
of another one.

* `Span.Delimits`: a span that can be cut out of a text. `Span.Delimits.exists_cuts` gives the piece
  under it.
* `Scan.delimits_of_mem`: the tokens, and the end of the text.
* `Nested.Places`: the spans in what a reading finds and in what it reports. Each part of the parser
  keeps this; `parseAt_places` says it of every number of levels.
* `Analysis.spans_delimit`: all spans that are found in a text.
-/

namespace Calculator

/-! ## Spans that can be cut out -/

namespace Span

/-- The span can be cut out of the text: its ends are in order, and both stand between two
characters, or at an end of the text. -/
structure Delimits (span : Span) (text : String) : Prop where
  start_le_stop : span.start ≤ span.stop
  stop_le : span.stop ≤ text.utf8ByteSize
  isValid_start : String.Pos.Raw.IsValid text ⟨span.start⟩
  isValid_stop : String.Pos.Raw.IsValid text ⟨span.stop⟩

variable {text piece : String} {a b span : Span} {start stop : Nat}

theorem delimits_mk (hstart : String.Pos.Raw.IsValid text ⟨start⟩)
    (hstop : String.Pos.Raw.IsValid text ⟨stop⟩) (hle : start ≤ stop) :
    Delimits ⟨start, stop⟩ text :=
  ⟨hle, String.Pos.Raw.le_iff.mp hstop.le_rawEndPos, hstart, hstop⟩

theorem delimits_point {offset : Nat} (h : String.Pos.Raw.IsValid text ⟨offset⟩) :
    (point offset).Delimits text :=
  delimits_mk h h (Nat.le_refl _)

theorem Delimits.cover (ha : a.Delimits text) (hb : b.Delimits text) :
    (a.cover b).Delimits text := by
  refine delimits_mk ?_ ?_ ?_
  · rcases Nat.le_total a.start b.start with h | h
    · rw [Nat.min_eq_left h]
      exact ha.isValid_start
    · rw [Nat.min_eq_right h]
      exact hb.isValid_start
  · rcases Nat.le_total a.stop b.stop with h | h
    · rw [Nat.max_eq_right h]
      exact hb.isValid_stop
    · rw [Nat.max_eq_left h]
      exact ha.isValid_stop
  · exact Nat.le_trans (Nat.min_le_left ..) (Nat.le_trans ha.start_le_stop (Nat.le_max_left ..))

theorem Cuts.delimits (h : span.Cuts text piece) : span.Delimits text := by
  obtain ⟨front, back, rfl, rfl⟩ := h
  refine delimits_mk ?_ ?_ (Nat.le_add_right ..)
  · exact String.Pos.Raw.isValid_iff_exists_append.mpr
      ⟨front, piece ++ back, String.append_assoc .., rfl⟩
  · refine String.Pos.Raw.isValid_iff_exists_append.mpr ⟨front ++ piece, back, rfl, ?_⟩
    rw [String.rawEndPos, String.utf8ByteSize_append]

/-- A piece of the text stands under the span. -/
theorem Delimits.exists_cuts (h : span.Delimits text) : ∃ piece, span.Cuts text piece := by
  obtain ⟨front, back, htext, hstart⟩ := String.Pos.Raw.isValid_iff_exists_append.mp h.isValid_start
  obtain ⟨front', back', htext', hstop⟩ :=
    String.Pos.Raw.isValid_iff_exists_append.mp h.isValid_stop
  have hstart : span.start = front.utf8ByteSize := congrArg String.Pos.Raw.byteIdx hstart
  have hstop : span.stop = front'.utf8ByteSize := congrArg String.Pos.Raw.byteIdx hstop
  have hlists := congrArg String.toList (htext.symm.trans htext')
  have hle := h.start_le_stop
  rw [hstart, hstop, ← Text.width_toList, ← Text.width_toList] at hle
  rw [String.toList_append, String.toList_append] at hlists
  obtain ⟨piece, hpiece, -⟩ := Text.exists_append_of_width_le hlists hle
  obtain rfl : front' = front ++ String.ofList piece := by
    rw [← String.toList_inj, hpiece, String.toList_append, String.toList_ofList]
  exact ⟨String.ofList piece, front, back', htext',
    by rw [← String.utf8ByteSize_append, ← hstart, ← hstop]⟩

end Span

/-! ## All spans -/

/-- The spans of the nodes of a tree and of their operators. -/
def Expr.spans : Expr → List Span
  | number _ span | invalid span => [span]
  | signed _ operand span => operand.spans ++ [span]
  | binary _ opSpan left right span => left.spans ++ right.spans ++ [opSpan, span]

/-- The span of a diagnostic and those of its labels. -/
def Diagnostic.spans (d : Diagnostic) : List Span := d.span :: d.labels.map (·.span)

/-- The spans of the tokens and of the end of the text, and that of the fault. -/
def Scan.spans (scan : Scan) : List Span :=
  scan.tokensToEnd.map (·.span) ++ scan.fault.toList.flatMap (·.toDiagnostic.spans)

/-- The spans in the tree and in the diagnostics. -/
def Analysis.spans (a : Analysis) : List Span := a.tree.spans ++ a.diagnostics.flatMap (·.spans)

namespace Scan

variable {text : String}

/-- The end of a text is a place to cut. -/
theorem delimits_stop (text : String) : (Span.point (ofText text).stop).Delimits text :=
  Span.delimits_point String.Pos.Raw.isValid_rawEndPos

/-- The tokens of a text can be cut out of it, and so can the end of the text. -/
theorem delimits_of_mem {token : Token} (h : token ∈ (ofText text).tokensToEnd) :
    token.span.Delimits text := by
  rcases List.mem_append.mp h with h | h
  · exact (cuts_of_mem h).delimits
  · obtain rfl := List.mem_singleton.mp h
    exact delimits_stop text

/-- The character at which the scan gives up can be cut out of the text. -/
theorem delimits_of_fault {fault : Report} (h : (ofText text).fault = some fault) :
    ∀ span ∈ fault.toDiagnostic.spans, span.Delimits text := by
  obtain ⟨stop, rest, hreads, ⟨hnone, -⟩ | ⟨c, back, rfl, -, -, hfault⟩⟩ := reads_or_fault text
  · nomatch hnone.symm.trans h
  · obtain rfl := Option.some.inj (hfault.symm.trans h)
    obtain ⟨front, htext, rfl⟩ := hreads.eq_append
    have hcuts : Span.Cuts _ text (String.ofList [c]) := Span.cuts_of_toList htext
    refine List.forall_mem_singleton.mpr ?_
    rw [Nat.zero_add]
    exact hcuts.delimits

end Scan

/-! ## Readings -/

namespace Cursor

/-- The spans in the reports made so far can be cut out of the text. -/
def Placed (text : String) (c : Cursor) : Prop :=
  ∀ report ∈ c.log, ∀ span ∈ report.toDiagnostic.spans, span.Delimits text

variable {text : String} {c : Cursor} {problem : Problem} {span : Span}

theorem Placed.advance (h : c.Placed text) : c.advance.Placed text := by
  rwa [Placed, log_advance]

theorem Placed.report (h : c.Placed text) (hspan : span.Delimits text)
    (hlabels : ∀ label ∈ problem.labels, label.span.Delimits text) :
    (c.report problem span).Placed text := by
  unfold Cursor.report
  split
  · exact h
  · refine List.forall_mem_cons.mpr ⟨List.forall_mem_cons.mpr ⟨hspan, fun span hmem => ?_⟩, h⟩
    obtain ⟨label, hlabel, rfl⟩ := List.mem_map.mp hmem
    exact hlabels label hlabel

section At

variable (h : c.At (Scan.ofText text))
include h

theorem At.delimits_peek : c.peek.span.Delimits text := by
  obtain ⟨front, back, htokens, -⟩ := h.exists_ahead
  exact Scan.delimits_of_mem (by rw [htokens]; simp)

/-- The last token that is passed ends between two characters. -/
theorem At.isValid_lastStop : String.Pos.Raw.IsValid text ⟨c.lastStop⟩ := by
  obtain ⟨front, htokens, hlast⟩ := h.exists_front
  rw [hlast, Token.lastStop]
  cases hlast : front.getLast? with
  | none => exact String.Pos.Raw.isValid_zero
  | some token =>
    have hmem : token ∈ (Scan.ofText text).tokens := by
      rw [htokens]
      exact List.mem_append_left _ (List.mem_of_mem_getLast? hlast)
    exact (Scan.delimits_of_mem (List.mem_append_left _ hmem)).isValid_stop

end At

end Cursor

namespace Expr

/-- The spans in the tree can be cut out of the text. -/
def Placed (text : String) (e : Expr) : Prop := ∀ span ∈ e.spans, span.Delimits text

variable {text : String} {e operand left right : Expr} {span opSpan : Span}

theorem span_mem_spans (e : Expr) : e.span ∈ e.spans := by
  cases e <;> simp [spans, Expr.span]

theorem Placed.delimits (h : e.Placed text) : e.span.Delimits text := h _ e.span_mem_spans

theorem placed_number (h : span.Delimits text) (literal : String) :
    (number literal span).Placed text :=
  List.forall_mem_singleton.mpr h

theorem placed_invalid (h : span.Delimits text) : (invalid span).Placed text :=
  List.forall_mem_singleton.mpr h

theorem Placed.signed (h : operand.Placed text) (hspan : span.Delimits text) (sign : Sign) :
    (signed sign operand span).Placed text :=
  List.forall_mem_append.mpr ⟨h, List.forall_mem_singleton.mpr hspan⟩

theorem Placed.binary (hl : left.Placed text) (hr : right.Placed text)
    (hop : opSpan.Delimits text) (hspan : span.Delimits text) (op : BinaryOp) :
    (binary op opSpan left right span).Placed text := by
  refine List.forall_mem_append.mpr ⟨List.forall_mem_append.mpr ⟨hl, hr⟩, ?_⟩
  exact List.forall_mem_cons.mpr ⟨hop, List.forall_mem_singleton.mpr hspan⟩

theorem Placed.withSpan (h : e.Placed text) (hspan : span.Delimits text) :
    (e.withSpan span).Placed text := by
  cases e with
  | number => exact placed_number hspan _
  | invalid => exact placed_invalid hspan
  | signed sign operand =>
    exact Placed.signed (fun _ hmem => h _ (List.mem_append_left _ hmem)) hspan sign
  | binary op opSpan left right =>
    refine Placed.binary (fun _ hmem => ?_) (fun _ hmem => ?_) ?_ hspan op
    · exact h _ (List.mem_append_left _ (List.mem_append_left _ hmem))
    · exact h _ (List.mem_append_left _ (List.mem_append_right _ hmem))
    · exact h _ (List.mem_append_right _ List.mem_cons_self)

/-- The spans in what a reading finds can be cut out of the text, and so can those in its
reports. -/
structure Places (text : String) (c : Cursor) (found : Expr × Cursor) : Prop where
  tree : found.1.Placed text
  log : c.Placed text → found.2.Placed text

namespace Nested

/-- Every reading at a place in the text finds and reports spans that can be cut out of it. -/
def Places (text : String) (inner : Nested) : Prop :=
  ∀ (least : Nat) (c : Cursor), c.At (Scan.ofText text) → Expr.Places text c (inner.read least c)

variable {c : Cursor}

/-- An operand that is missing behind an operator or a sign. -/
theorem places_missing (hc : c.At (Scan.ofText text)) {problem : Problem}
    (hlabels : problem.labels = []) : Expr.Places text c
      (invalid (.point c.peek.span.stop), c.advance.report problem c.peek.span) := by
  refine ⟨placed_invalid (Span.delimits_point hc.delimits_peek.isValid_stop), fun hlog => ?_⟩
  exact hlog.advance.report hc.delimits_peek (by rw [hlabels]; exact List.forall_mem_nil _)

variable {inner : Nested} (h : inner.Places text)
include h

theorem places_readSigned (hc : c.At (Scan.ofText text)) (sign : Sign) :
    Expr.Places text c (inner.readSigned sign c) := by
  have htoken := hc.delimits_peek
  cases hs : c.advance.peek.kind.startsExpr with
  | true =>
    have hoperand := h Sign.binding c.advance hc.advance
    rw [inner.readSigned_of_starts hs]
    exact ⟨hoperand.tree.signed (htoken.cover hoperand.tree.delimits) sign,
      fun hlog => hoperand.log hlog.advance⟩
  | false =>
    have hmissing := places_missing hc (show (Problem.missingSigned sign).labels = [] from rfl)
    rw [inner.readSigned_of_not_starts hs]
    exact ⟨hmissing.tree.signed (htoken.cover hmissing.tree.delimits) sign, hmissing.log⟩

theorem places_readRight (hc : c.At (Scan.ofText text)) (op : BinaryOp) :
    Expr.Places text c (inner.readRight op c) := by
  cases hs : c.advance.peek.kind.startsExpr with
  | true =>
    have hoperand := h op.rightBinding c.advance hc.advance
    rw [inner.readRight_of_starts hs]
    exact ⟨hoperand.tree, fun hlog => hoperand.log hlog.advance⟩
  | false =>
    rw [inner.readRight_of_not_starts hs]
    exact places_missing hc rfl

theorem places_readGroup (hfits : inner.Fits (Scan.ofText text)) (hleads : inner.Leads)
    (hc : c.At (Scan.ofText text)) (kind : c.peek.kind = .openParen) :
    Expr.Places text c (inner.readGroup c) := by
  have hcontent := h 0 c.advance hc.advance
  have hafter := (hfits 0 c.advance hc.advance).1.at_end
  have hstands := (fits_readGroup (Scan.ordered_ofText text) hfits hc hleads kind).1
  have hspan : (inner.readGroup c).1.span = ⟨c.peek.span.start, (inner.readGroup c).2.lastStop⟩ :=
    span_withSpan ..
  have hle := hstands.start_le_stop
  rw [hspan] at hle
  refine ⟨hcontent.tree.withSpan ?_, fun hlog => ?_⟩
  · exact Span.delimits_mk hc.delimits_peek.isValid_start hstands.at_end.isValid_lastStop hle
  · by_cases hclose : (inner.read 0 c.advance).2.peek.kind = .closeParen
    · rw [inner.readGroup_of_closed hclose]
      exact (hcontent.log hlog.advance).advance
    · rw [inner.readGroup_of_not_closed hclose]
      exact (hcontent.log hlog.advance).report hafter.delimits_peek
        (List.forall_mem_singleton.mpr hc.delimits_peek)

theorem places_readOperand (hfits : inner.Fits (Scan.ofText text)) (hleads : inner.Leads)
    (hc : c.At (Scan.ofText text)) : Expr.Places text c (inner.readOperand c) := by
  have htoken := hc.delimits_peek
  refine inner.readOperand_cases (motive := Expr.Places text c)
    (fun _ => ⟨placed_number htoken _, Cursor.Placed.advance⟩)
    (fun sign _ => places_readSigned h hc sign)
    (fun kind => places_readGroup h hfits hleads hc kind) fun _ => ?_
  exact ⟨placed_invalid htoken, fun hlog => hlog.report htoken (List.forall_mem_nil _)⟩

theorem places_climb (hfits : inner.Fits (Scan.ofText text)) {start : Cursor} (least : Nat)
    (left : Expr) (c : Cursor) (hc : c.At (Scan.ofText text))
    (hleft : Expr.Places text start (left, c)) :
    Expr.Places text start (inner.climb least left c) := by
  fun_induction inner.climb least left c with
  | case1 | case2 => exact hleft
  | case3 left c op hop hle right hlt ih =>
    have hright := places_readRight h hc op
    have hspan := hleft.tree.delimits.cover hright.tree.delimits
    exact ih (fits_readRight hfits hc hop).1.at_end
      ⟨hleft.tree.binary hright.tree hc.delimits_peek hspan op,
        fun hlog => hright.log (hleft.log hlog)⟩

theorem places_readExpr (hfits : inner.Fits (Scan.ofText text)) (hleads : inner.Leads)
    (hc : c.At (Scan.ofText text)) (least : Nat) : Expr.Places text c (inner.readExpr least c) :=
  places_climb h hfits least _ _
    (fits_readOperand (Scan.ordered_ofText text) hfits hc hleads).1.at_end
    (places_readOperand h hfits hleads hc)

end Nested

theorem parseAt_places (text : String) (limit levels : Nat) :
    (parseAt limit levels).Places text := by
  induction levels with
  | zero =>
    intro least c hc
    have hstop : (Span.point c.stop).Delimits text :=
      hc.stop_eq ▸ Scan.delimits_stop text
    refine ⟨placed_invalid hstop, fun hlog => ?_⟩
    exact hlog.report hc.delimits_peek (List.forall_mem_nil _)
  | succ levels ih =>
    exact fun least c hc => Nested.places_readExpr ih
      (parseAt_fits (Scan.ordered_ofText text) limit levels) (parseAt_leads limit levels) hc least

theorem places_readAll (text : String) (limit : Nat) : Places text
    { rest := (Scan.ofText text).tokens, stop := (Scan.ofText text).stop }
    (readAll limit (Scan.ofText text).tokens (Scan.ofText text).stop) := by
  have hstop := Scan.delimits_stop text
  by_cases hnil : (Scan.ofText text).tokens = []
  · rw [hnil, readAll_nil]
    exact ⟨placed_invalid hstop, fun hlog => hlog.report hstop (List.forall_mem_nil _)⟩
  · have hstart := Cursor.at_start (Scan.ofText text)
    have hfound := parseAt_places text limit limit 0 _ hstart
    have hafter := (parseAt_fits (Scan.ordered_ofText text) limit limit 0 _ hstart).1.at_end
    rw [readAll_of_ne_nil _ _ hnil]
    refine ⟨hfound.tree, fun hlog => ?_⟩
    show Cursor.Placed text (Cursor.reportTrailing _)
    unfold Cursor.reportTrailing
    split
    · exact hfound.log hlog
    · exact (hfound.log hlog).report hafter.delimits_peek (List.forall_mem_nil _)

end Expr

namespace Scan

/-- The spans of the tokens and of the fault of a text can be cut out of it. -/
theorem delimits_of_mem_spans {text : String} {span : Span} (h : span ∈ (ofText text).spans) :
    span.Delimits text := by
  rcases List.mem_append.mp h with h | h
  · obtain ⟨token, hmem, rfl⟩ := List.mem_map.mp h
    exact delimits_of_mem hmem
  · obtain ⟨fault, hfault, hmem⟩ := List.mem_flatMap.mp h
    exact delimits_of_fault (Option.mem_toList.mp hfault) span hmem

end Scan

namespace Analysis

/-- The spans in the tree and in the diagnostics of a text can be cut out of it. -/
theorem delimits_of_mem_spans {text : String} {nesting : Nat} {span : Span}
    (h : span ∈ (ofText nesting text).spans) : span.Delimits text := by
  have hread := Expr.places_readAll text nesting
  rcases List.mem_append.mp h with h | h
  · exact hread.tree span h
  · obtain ⟨diagnostic, hdiagnostic, hmem⟩ := List.mem_flatMap.mp h
    cases hfault : (Scan.ofText text).fault with
    | some fault =>
      rw [Limits.diagnostics_of_fault hfault] at hdiagnostic
      obtain rfl := List.mem_singleton.mp hdiagnostic
      exact Scan.delimits_of_fault hfault span hmem
    | none =>
      rw [diagnostics_ofText hfault] at hdiagnostic
      obtain ⟨report, hreport, rfl⟩ := List.mem_map.mp hdiagnostic
      exact hread.log nofun report (List.mem_reverse.mp hreport) span hmem

/-- Every span that is found in a text can be cut out of it, whether the text is accepted or not:
those of the tokens, of the end of the text and of the fault of the scan, those in the tree and in
the diagnostics, and those that a call for an expression finds, of which a group may replace one
later. Under the span of a token stands its text. -/
theorem spans_delimit (nesting : Nat) (text : String) :
    let scan := Scan.ofText text
    (∀ span ∈ scan.spans ++ (ofText nesting text).spans,
      span.Delimits text ∧ ∃ piece, span.Cuts text piece) ∧
    (∀ call, scan.Calls nesting call →
      ∀ span ∈ (call.found nesting).1.spans, span.Delimits text) ∧
    ∀ token ∈ scan.tokens, token.span.Cuts text token.text := by
  intro scan
  refine ⟨fun span hspan => ?_, fun call hcall => ?_, fun token => Scan.cuts_of_mem⟩
  · have hdelimits : span.Delimits text :=
      (List.mem_append.mp hspan).elim Scan.delimits_of_mem_spans delimits_of_mem_spans
    exact ⟨hdelimits, hdelimits.exists_cuts⟩
  · have hplace := hcall.at_cursor (Scan.ordered_ofText text)
    exact (Expr.parseAt_places text nesting call.levels call.least _ hplace).tree

/-- A group that is not closed, with a blank of three bytes behind it: the report stands at the end
of the text, its label and the node at the parenthesis, and the number in the group had a span of
its own. -/
theorem spans_delimit_open_group :
    let text := "(1\u2003"
    let scan := Scan.ofText text
    let call : Expr.Call := ⟨1, 0, Cursor.advance { rest := scan.tokens, stop := scan.stop }⟩
    (ofText 2 text).spans = [⟨0, 2⟩, ⟨5, 5⟩, ⟨0, 1⟩] ∧ (⟨5, 5⟩ : Span).Delimits text ∧
      scan.Calls 2 call ∧ (call.found 2).1.spans = [⟨1, 2⟩] ∧ (⟨1, 2⟩ : Span).Delimits text := by
  intro text scan call
  have hspans : (ofText 2 text).spans = [⟨0, 2⟩, ⟨5, 5⟩, ⟨0, 1⟩] := by decide +kernel
  have hfound : (call.found 2).1.spans = [⟨1, 2⟩] := by decide +kernel
  have hcall : scan.Calls 2 call :=
    ⟨by decide +kernel, .single (.content (by decide +kernel))⟩
  obtain ⟨hall, hcalls, -⟩ := spans_delimit 2 text
  exact ⟨hspans, (hall ⟨5, 5⟩ (by rw [hspans]; decide +kernel)).1, hcall, hfound,
    hcalls call hcall ⟨1, 2⟩ (by rw [hfound]; decide)⟩

end Analysis

end Calculator

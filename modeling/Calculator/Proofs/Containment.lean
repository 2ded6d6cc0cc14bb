import Calculator.Proofs.Excerpt
import Calculator.Proofs.Reading

/-!
# Spans inside spans

The span of a node takes in its operands and its operator when the node is made. A group gives a
node another span, from the opening parenthesis to the last token that was passed. This takes in
what the node had before, but for one case: an invalid node at the end of the text stands behind the
last token, and where something stands between the two, blanks or a character at which the scan gave
up, the new span ends in front of it.

* `Cursor.At`: a cursor at one of the tokens of a scan. Every step leads from such a cursor to
  another one.
* `Expr.Frames`: the operator and the left operand lie in the node, and so do other operands, in
  some sense of that.
* `Nested.Fits`: a reading stands between the cursors from which and to which it leads, and its
  nodes frame their operands. Each part of the parser keeps this; `parseAt_fits` says it of every
  number of levels.
* `Analysis.spans_contained`: the spans in the tree of a text, and those that a group replaces.
-/

namespace Calculator

open Grammar

/-! ## Places in a scan -/

/-- Where the last of the tokens ends; zero if there is none. -/
def Token.lastStop (tokens : List Token) : Nat :=
  (tokens.getLast?.map fun token => token.span.stop).getD 0

namespace Token

variable {front back tokens : List Token} {token : Token}

theorem lastStop_append (front back : List Token) : lastStop (front ++ back) =
    (back.getLast?.map fun token => token.span.stop).getD (lastStop front) := by
  rw [lastStop, List.getLast?_append]
  cases back.getLast? <;> rfl

theorem lastStop_concat (front : List Token) (token : Token) :
    lastStop (front ++ [token]) = token.span.stop :=
  lastStop_append front [token]

theorem lastStop_le {bound : Nat} (h : ∀ token ∈ tokens, token.span.stop ≤ bound) :
    lastStop tokens ≤ bound := by
  unfold lastStop
  cases hlast : tokens.getLast? with
  | none => exact Nat.zero_le _
  | some token => exact h token (List.mem_of_mem_getLast? hlast)

/-- Further tokens end no earlier. -/
theorem lastStop_le_append (h : Ordered (front ++ back)) :
    lastStop front ≤ lastStop (front ++ back) := by
  rw [lastStop_append]
  cases hlast : back.getLast? with
  | none => exact Nat.le_refl _
  | some token =>
    have hmem := List.mem_of_mem_getLast? hlast
    have hstart := h.start_le_stop token (List.mem_append_right _ hmem)
    refine Nat.le_trans (lastStop_le fun before hbefore => ?_) hstart
    exact (List.pairwise_append.mp h.pairwise).2.2 before hbefore token hmem

end Token

namespace Scan

/-- Where the last token of the scan ends. -/
def lastStop (scan : Scan) : Nat := Token.lastStop scan.tokens

/-- The span ends with a token of the scan at the latest, or else with the text. -/
def Settled (scan : Scan) (span : Span) : Prop :=
  span.stop ≤ scan.lastStop ∨ span.stop = scan.stop

/-- The span `b` ends with the last token, and `a` behind it, at the end of the text. -/
structure Overhangs (scan : Scan) (a b : Span) : Prop where
  start_le : b.start ≤ a.start
  stop_eq : a.stop = scan.stop
  cut : b.stop = scan.lastStop
  gap : scan.lastStop < scan.stop

/-- The tokens of a text follow each other, and the end of the text stands behind them. -/
theorem ordered_ofText (text : String) : Ordered (ofText text).tokensToEnd := by
  obtain ⟨stop, rest, hreads, -⟩ := reads_ofText text
  obtain ⟨hstart, hpairwise⟩ := hreads.ordered.1
  refine ⟨fun token hmem => ?_, List.pairwise_append.mpr
    ⟨hpairwise, List.pairwise_singleton .., fun token hmem finish hfinish => ?_⟩⟩
  · rcases List.mem_append.mp hmem with hmem | hmem
    · exact hstart token hmem
    · obtain rfl := List.mem_singleton.mp hmem
      exact Nat.le_refl _
  · obtain rfl := List.mem_singleton.mp hfinish
    obtain ⟨front, back, htext, hspan⟩ := cuts_of_mem hmem
    have hsize : text.utf8ByteSize = (front ++ token.text ++ back).utf8ByteSize := congrArg _ htext
    rw [String.utf8ByteSize_append, String.utf8ByteSize_append] at hsize
    rw [hspan]
    show _ ≤ text.utf8ByteSize
    dsimp only
    omega

theorem ordered_tokens {scan : Scan} (h : Ordered scan.tokensToEnd) : Ordered scan.tokens :=
  h.sublist (List.sublist_append_left ..)

/-- The last token ends in front of the end of the text. -/
theorem lastStop_le_stop {scan : Scan} (h : Ordered scan.tokensToEnd) :
    scan.lastStop ≤ scan.stop :=
  Token.lastStop_le h.between.1

end Scan

namespace Cursor

/-- The cursor stands behind some of the tokens of the scan, and in front of the others. -/
structure At (scan : Scan) (c : Cursor) : Prop where
  stop_eq : c.stop = scan.stop
  exists_front : ∃ front, scan.tokens = front ++ c.rest ∧ c.lastStop = Token.lastStop front

variable {scan : Scan} {c c' : Cursor}

theorem at_start (scan : Scan) : At scan { rest := scan.tokens, stop := scan.stop } :=
  ⟨rfl, [], rfl, rfl⟩

theorem lastStop_advance (c : Cursor) (hkind : c.peek.kind ≠ .finish) :
    c.advance.lastStop = c.peek.span.stop :=
  lastStop_advance_of_rest (rest_eq_cons hkind)

theorem At.report (h : c.At scan) (problem : Problem) (span : Span) :
    (c.report problem span).At scan := by
  unfold Cursor.report
  split
  · exact h
  · exact ⟨h.stop_eq, h.exists_front⟩

theorem At.advance (h : c.At scan) : c.advance.At scan := by
  obtain ⟨front, htokens, hlast⟩ := h.exists_front
  refine ⟨c.stop_advance.trans h.stop_eq, ?_⟩
  fun_cases Cursor.advance c with
  | case1 hrest => exact ⟨front, htokens, hlast⟩
  | case2 token rest hrest =>
    refine ⟨front ++ [token], ?_, (Token.lastStop_concat front token).symm⟩
    rw [htokens, hrest, List.append_assoc]
    rfl

/-- The way past a group ends behind the last of the tokens that it passes. -/
theorem exists_skipGroup (depth : Nat) {last : Nat} {front : List Token} (tokens : List Token)
    (hlast : last = Token.lastStop front) : ∃ passed,
      tokens = passed ++ (skipGroup depth last tokens).1 ∧
        (skipGroup depth last tokens).2 = Token.lastStop (front ++ passed) := by
  fun_induction skipGroup depth last tokens generalizing front with
  | case1 => exact ⟨[], rfl, by rw [hlast, List.append_nil]⟩
  | case2 last token rest hkind =>
    exact ⟨[token], rfl, (Token.lastStop_concat front token).symm⟩
  | case3 last token rest depth hkind ih | case4 depth last token rest hkind ih
  | case5 depth last token rest h₁ h₂ h₃ ih =>
    obtain ⟨passed, hrest, hstop⟩ := ih (Token.lastStop_concat front token).symm
    refine ⟨token :: passed, congrArg (token :: ·) hrest, ?_⟩
    rw [hstop, List.append_assoc]
    rfl

theorem At.skipPastClose (h : c.At scan) : c.skipPastClose.At scan := by
  obtain ⟨front, htokens, hlast⟩ := h.exists_front
  obtain ⟨passed, hrest, hstop⟩ := exists_skipGroup 0 c.rest hlast
  refine ⟨h.stop_eq, front ++ passed, ?_, hstop⟩
  rw [List.append_assoc, htokens]
  exact congrArg (front ++ ·) hrest

theorem At.halt (h : c.At scan) (limit : Nat) : (c.halt limit).At scan := by
  obtain ⟨front, htokens, hlast⟩ := h.exists_front
  refine ⟨(leads_halt c limit).stop_eq.trans h.stop_eq, front ++ c.rest, ?_, ?_⟩
  · rw [htokens, rest_halt, List.append_nil]
  · rw [Token.lastStop_append, ← hlast]
    rfl

/-- Behind the last token, all tokens are passed. -/
theorem At.lastStop_eq (h : c.At scan) (hrest : c.rest = []) : c.lastStop = scan.lastStop := by
  obtain ⟨front, htokens, hlast⟩ := h.exists_front
  rw [hlast, Scan.lastStop, htokens, hrest, List.append_nil]

/-- The next token is one of the scan, or the end of the text. -/
theorem At.exists_ahead (h : c.At scan) : ∃ front back,
    scan.tokensToEnd = front ++ c.peek :: back ∧ c.lastStop = Token.lastStop front := by
  obtain ⟨front, htokens, hlast⟩ := h.exists_front
  obtain ⟨back, hback⟩ := c.exists_ahead
  refine ⟨front, back, ?_, hlast⟩
  rw [Scan.tokensToEnd, htokens, ← h.stop_eq, List.append_assoc, hback]

section Ordered

variable (hscan : Ordered scan.tokensToEnd) (h : c.At scan)
include hscan h

/-- The next token stands behind those that are passed. -/
theorem At.lastStop_le_peek : c.lastStop ≤ c.peek.span.start := by
  obtain ⟨front, back, htokens, hlast⟩ := h.exists_ahead
  rw [hlast]
  exact Token.lastStop_le (htokens ▸ hscan).between.1

theorem At.peek_start_le_stop : c.peek.span.start ≤ c.peek.span.stop := by
  obtain ⟨front, back, htokens, -⟩ := h.exists_ahead
  exact (htokens ▸ hscan).between.2.1

/-- A cursor that stands further on has passed no fewer tokens. -/
theorem At.lastStop_le_of_suffix (h' : c'.At scan) (hrest : c'.rest <:+ c.rest) :
    c.lastStop ≤ c'.lastStop := by
  obtain ⟨front, htokens, hlast⟩ := h.exists_front
  obtain ⟨front', htokens', hlast'⟩ := h'.exists_front
  obtain ⟨passed, hpassed⟩ := hrest
  obtain rfl : front' = front ++ passed := by
    rw [htokens', ← hpassed, ← List.append_assoc] at htokens
    exact List.append_cancel_right htokens
  rw [hlast, hlast']
  have hordered := Scan.ordered_tokens hscan
  rw [htokens'] at hordered
  exact Token.lastStop_le_append (hordered.sublist (List.sublist_append_left ..))

theorem At.lastStop_le_advance : c.lastStop ≤ c.advance.lastStop :=
  h.lastStop_le_of_suffix hscan h.advance c.leads_advance.rest_suffix

theorem At.lastStop_le : c.lastStop ≤ scan.lastStop := by
  obtain ⟨front, htokens, hlast⟩ := h.exists_front
  have hordered := Scan.ordered_tokens hscan
  rw [hlast, Scan.lastStop, htokens]
  exact Token.lastStop_le_append (htokens ▸ hordered)

/-- A token that is passed is the last one that is. -/
theorem At.peek_stop_le (hkind : c.peek.kind ≠ .finish) : c.peek.span.stop ≤ scan.lastStop := by
  rw [← c.lastStop_advance hkind]
  exact h.advance.lastStop_le hscan

end Ordered

theorem skipGroup_suffix_tail (depth last : Nat) (tokens : List Token) :
    (skipGroup depth last tokens).1 <:+ tokens.tail := by
  unfold skipGroup
  split
  · exact List.suffix_rfl
  · split
    · exact List.suffix_rfl
    · exact skipGroup_suffix ..
    · exact skipGroup_suffix ..
    · exact skipGroup_suffix ..

/-- The way past a group passes a token, if there is one. -/
theorem skipPastClose_suffix (c : Cursor) : c.skipPastClose.rest <:+ c.advance.rest :=
  c.rest_advance ▸ skipGroup_suffix_tail 0 c.lastStop c.rest

end Cursor

/-! ## Spans in nodes -/

namespace Scan

variable {scan : Scan} {met met' : Prop} {a old new : Span}

/-- The span `a` lies in `b`, among the tokens. -/
def Holds (scan : Scan) (a b : Span) : Prop := a.Within b ∧ a.stop ≤ scan.lastStop

/-- The span `a` lies in `b`, unless the limit is met and `a` overhangs. -/
def Keeps (scan : Scan) (met : Prop) (a b : Span) : Prop :=
  scan.Settled a ∧ (a.Within b ∨ met ∧ scan.Overhangs a b)

/-- The span `new` of a group is put in the place of `old`. -/
def Replaces (scan : Scan) (met : Prop) (old new : Span) : Prop :=
  new.stop ≤ scan.lastStop ∧ (old.Within new ∨ met ∧ scan.Overhangs old new)

theorem Keeps.mono (h : scan.Keeps met a old) (himp : met → met') : scan.Keeps met' a old :=
  h.imp_right (Or.imp_right (And.imp_left himp))

theorem Holds.replace (h : scan.Holds a old) (hnew : scan.Replaces met old new) :
    scan.Holds a new := by
  rcases hnew.2 with hwithin | ⟨-, hover⟩
  · exact ⟨h.1.trans hwithin, h.2⟩
  · exact ⟨⟨Nat.le_trans hover.start_le h.1.1, hover.cut ▸ h.2⟩, h.2⟩

/-- What overhangs the span that is replaced overhangs the new one, and so does what reaches to the
end of the text with it. -/
theorem Keeps.replace (h : scan.Keeps met a old) (hnew : scan.Replaces met old new) :
    scan.Keeps met a new := by
  refine ⟨h.1, ?_⟩
  rcases hnew.2 with hwithin | ⟨hmet, hover⟩ <;> rcases h.2 with hin | ⟨hmet', hover'⟩
  · exact .inl (hin.trans hwithin)
  · refine .inr ⟨hmet', Nat.le_trans hwithin.1 hover'.start_le, hover'.stop_eq, ?_, hover'.gap⟩
    exact Nat.le_antisymm hnew.1 (hover'.cut ▸ hwithin.2)
  · have hstart := Nat.le_trans hover.start_le hin.1
    rcases h.1 with hle | hstop
    · exact .inl ⟨hstart, hover.cut ▸ hle⟩
    · exact .inr ⟨hmet, hstart, hstop, hover.cut, hover.gap⟩
  · exact absurd (hover'.cut.symm.trans hover.stop_eq) (Nat.ne_of_lt hover.gap)

/-- A span that ends with the last token takes in what stands behind its start, or is overhung. -/
theorem within_or_overhangs {a b : Span} (hstart : b.start ≤ a.start) (ha : a.stop = scan.stop)
    (hb : b.stop = scan.lastStop) : a.Within b ∨ scan.Overhangs a b := by
  rcases Nat.lt_or_ge scan.lastStop scan.stop with hlt | hle
  · exact .inr ⟨hstart, ha, hb, hlt⟩
  · exact .inl ⟨hstart, by rw [ha, hb]; exact hle⟩

end Scan

namespace Expr

/-- The left operand and the operator of the node are `inner` to its span, and another operand is
`outer` to it. -/
def Frames (inner outer : Span → Span → Prop) : Expr → Prop
  | number .. | invalid .. => True
  | signed _ operand span => outer operand.span span
  | binary _ opSpan left right span =>
    inner left.span span ∧ inner opSpan span ∧ outer right.span span

theorem Frames.mono {inner inner' outer outer' : Span → Span → Prop} {e : Expr}
    (h : e.Frames inner outer) (hinner : ∀ a b, inner a b → inner' a b)
    (houter : ∀ a b, outer a b → outer' a b) : e.Frames inner' outer' := by
  cases e with
  | number | invalid => trivial
  | signed => exact houter _ _ h
  | binary => exact ⟨hinner _ _ h.1, hinner _ _ h.2.1, houter _ _ h.2.2⟩

theorem Frames.withSpan {inner outer : Span → Span → Prop} {e : Expr} {span : Span}
    (h : e.Frames inner outer) (hinner : ∀ a, inner a e.span → inner a span)
    (houter : ∀ a, outer a e.span → outer a span) : (e.withSpan span).Frames inner outer := by
  cases e with
  | number | invalid => trivial
  | signed => exact houter _ h
  | binary => exact ⟨hinner _ h.1, hinner _ h.2.1, houter _ h.2.2⟩

/-- Every node of the tree frames its operands. -/
def Framed (scan : Scan) (met : Prop) (e : Expr) : Prop :=
  ∀ part ∈ e.postorder, part.Frames scan.Holds (scan.Keeps met)

variable {scan : Scan} {met met' : Prop} {e operand left right : Expr} {opSpan span : Span}

theorem Framed.mono (h : e.Framed scan met) (himp : met → met') : e.Framed scan met' :=
  fun part hpart => (h part hpart).mono (fun _ _ => id) fun _ _ hkeeps => hkeeps.mono himp

theorem framed_number (text : String) (span : Span) : (number text span).Framed scan met := by
  intro part hpart
  obtain rfl := List.mem_singleton.mp hpart
  trivial

theorem framed_invalid (span : Span) : (invalid span).Framed scan met := by
  intro part hpart
  obtain rfl := List.mem_singleton.mp hpart
  trivial

theorem Framed.signed (h : operand.Framed scan met) (sign : Sign)
    (hspan : scan.Keeps met operand.span span) : (signed sign operand span).Framed scan met := by
  intro part hpart
  rcases mem_postorder_signed.mp hpart with hpart | rfl
  · exact h part hpart
  · exact hspan

theorem Framed.binary (hl : left.Framed scan met) (hr : right.Framed scan met) (op : BinaryOp)
    (hleft : scan.Holds left.span span) (hop : scan.Holds opSpan span)
    (hright : scan.Keeps met right.span span) :
    (binary op opSpan left right span).Framed scan met := by
  intro part hpart
  rcases mem_postorder_binary.mp hpart with hpart | hpart | rfl
  · exact hl part hpart
  · exact hr part hpart
  · exact ⟨hleft, hop, hright⟩

theorem Framed.withSpan (h : e.Framed scan met) (hspan : scan.Replaces met e.span span) :
    (e.withSpan span).Framed scan met := by
  intro part hpart
  rcases mem_postorder_withSpan hpart with rfl | hpart
  · exact (h e (mem_postorder_self e)).withSpan (fun _ hholds => hholds.replace hspan)
      fun _ hkeeps => hkeeps.replace hspan
  · exact h part hpart

/-! ## Readings -/

/-- What a reading from `c` finds stands behind what was passed before, and frames its operands. -/
structure Stands (scan : Scan) (c : Cursor) (found : Expr × Cursor) : Prop where
  at_end : found.2.At scan
  lastStop_le : c.lastStop ≤ found.1.span.start
  start_le_stop : found.1.span.start ≤ found.1.span.stop
  framed : found.1.Framed scan (found.2.halted = true)

/-- What a reading finds ends with a token that it has passed, or at the limit with the text. -/
def Ends (scan : Scan) (found : Expr × Cursor) : Prop :=
  found.1.span.stop ≤ found.2.lastStop ∨
    found.2.halted = true ∧ found.2.rest = [] ∧ found.1.span.stop = scan.stop

/-- A reading stands and ends where it should. A token that starts no operand may be found as an
invalid node while it is still ahead. -/
def Fits (scan : Scan) (c : Cursor) (found : Expr × Cursor) : Prop :=
  Stands scan c found ∧ (Ends scan found ∨
    c.peek.kind.startsExpr = false ∧ found.1 = invalid found.2.peek.span)

/-- Where an operand starts, it is passed. -/
theorem Fits.ends {c : Cursor} {found : Expr × Cursor} (h : Fits scan c found)
    (hs : c.peek.kind.startsExpr = true) : Ends scan found := by
  refine h.2.resolve_right fun hnot => ?_
  rw [hs] at hnot
  nomatch hnot.1

variable {c c' : Cursor} (hscan : Ordered scan.tokensToEnd)
include hscan

theorem Ends.settled {found : Expr × Cursor} (h : Ends scan found) (hfound : found.2.At scan) :
    scan.Settled found.1.span :=
  h.imp (fun hle => Nat.le_trans hle (hfound.lastStop_le hscan)) fun h => h.2.2

/-- A sign with what is found behind it. -/
theorem Stands.signed (hc : c.At scan) (hkind : c.peek.kind ≠ .finish)
    (h : Stands scan c.advance (operand, c')) (hends : Ends scan (operand, c')) (sign : Sign) :
    Stands scan c (.signed sign operand (c.peek.span.cover operand.span), c') ∧
      Ends scan (.signed sign operand (c.peek.span.cover operand.span), c') := by
  have hpassed := c.lastStop_advance hkind
  have htoken := hc.peek_start_le_stop hscan
  have hle : c.peek.span.stop ≤ operand.span.start := hpassed ▸ h.lastStop_le
  have hoperand : operand.span.start ≤ operand.span.stop := h.start_le_stop
  have hcover : c.peek.span.cover operand.span = ⟨c.peek.span.start, operand.span.stop⟩ :=
    Span.cover_eq (by omega) (by omega)
  have hframed := Framed.signed h.framed sign
    ⟨hends.settled hscan h.at_end, .inl (Span.within_cover_right c.peek.span operand.span)⟩
  rw [hcover] at hframed ⊢
  refine ⟨⟨h.at_end, hc.lastStop_le_peek hscan, ?_, hframed⟩, hends⟩
  show c.peek.span.start ≤ operand.span.stop
  omega

/-- An operator with what is found on both sides of it. -/
theorem Fits.binary {start : Cursor} (h : Fits scan start (left, c)) {op : BinaryOp}
    (hop : c.peek.kind.binaryOp? = some op) (hr : Stands scan c.advance (right, c'))
    (hends : Ends scan (right, c')) (hleads : c.Leads c') :
    Fits scan start
      (.binary op c.peek.span left right (left.span.cover right.span), c') := by
  have hrest := Cursor.rest_eq_cons_of_binaryOp? hop
  have hc : c.At scan := h.1.at_end
  have htoken := hc.peek_start_le_stop hscan
  have hpassed := Cursor.lastStop_advance_of_rest hrest
  have hlast := hc.peek_stop_le hscan (Token.Kind.ne_finish_of_binaryOp? hop)
  have hle : c.peek.span.stop ≤ right.span.start := hpassed ▸ hr.lastStop_le
  have hl : left.span.start ≤ left.span.stop := h.1.start_le_stop
  have hright : right.span.start ≤ right.span.stop := hr.start_le_stop
  -- An operand that is missing on the left stands where the operator does.
  have hleft : left.span.start ≤ c.peek.span.start ∧ left.span.stop ≤ c.peek.span.stop := by
    rcases h.2 with (hpast | ⟨-, hnil, -⟩) | ⟨-, hinvalid⟩
    · have hpast : left.span.stop ≤ c.lastStop := hpast
      have := hc.lastStop_le_peek hscan
      omega
    · nomatch hrest.symm.trans hnil
    · have hinvalid : left = invalid c.peek.span := hinvalid
      rw [hinvalid]
      exact ⟨Nat.le_refl _, Nat.le_refl _⟩
  have hcover : left.span.cover right.span = ⟨left.span.start, right.span.stop⟩ :=
    Span.cover_eq (by omega) (by omega)
  have hin : c.peek.span.Within (left.span.cover right.span) := by
    rw [hcover]
    exact ⟨hleft.1, Nat.le_trans hle hright⟩
  have hframed := Framed.binary (h.1.framed.mono hleads.halted) hr.framed op
    ⟨Span.within_cover_left .., Nat.le_trans hleft.2 hlast⟩ ⟨hin, hlast⟩
    ⟨hends.settled hscan hr.at_end, .inl (Span.within_cover_right ..)⟩
  rw [hcover] at hframed ⊢
  refine ⟨⟨hr.at_end, h.1.lastStop_le, ?_, hframed⟩, .inl hends⟩
  show left.span.start ≤ right.span.stop
  omega

omit hscan in
/-- An operand that is missing behind an operator or a sign. -/
theorem stands_missing (hc : c.At scan) (hkind : c.peek.kind ≠ .finish) (problem : Problem) :
    Stands scan c.advance
      (invalid (.point c.peek.span.stop), c.advance.report problem c.peek.span) ∧
    Ends scan (invalid (.point c.peek.span.stop), c.advance.report problem c.peek.span) := by
  have hpassed := c.lastStop_advance hkind
  refine ⟨⟨hc.advance.report .., Nat.le_of_eq hpassed, Nat.le_refl _, framed_invalid _⟩, .inl ?_⟩
  rw [Cursor.lastStop_report, hpassed]
  exact Nat.le_refl _

namespace Nested

/-- Every reading at a place in the scan stands and ends where it should. -/
def Fits (scan : Scan) (inner : Nested) : Prop :=
  ∀ (least : Nat) (c : Cursor), c.At scan → Expr.Fits scan c (inner.read least c)

variable {inner : Nested} (h : inner.Fits scan) (hc : c.At scan)
include h hc

theorem fits_readSigned {sign : Sign} (kind : c.peek.kind.sign? = some sign) :
    Stands scan c (inner.readSigned sign c) ∧ Ends scan (inner.readSigned sign c) := by
  have hkind : c.peek.kind ≠ .finish := Token.Kind.ne_finish_of_sign? kind
  cases hs : c.advance.peek.kind.startsExpr with
  | true =>
    have hfits := h Sign.binding c.advance hc.advance
    rw [inner.readSigned_of_starts hs]
    exact Stands.signed hscan hc hkind hfits.1 (hfits.ends hs) sign
  | false =>
    rw [inner.readSigned_of_not_starts hs]
    obtain ⟨hstands, hends⟩ := stands_missing hc hkind (.missingSigned sign)
    exact Stands.signed hscan hc hkind hstands hends sign

omit hscan in
theorem fits_readRight {op : BinaryOp} (kind : c.peek.kind.binaryOp? = some op) :
    Stands scan c.advance (inner.readRight op c) ∧ Ends scan (inner.readRight op c) := by
  have hkind : c.peek.kind ≠ .finish := Token.Kind.ne_finish_of_binaryOp? kind
  cases hs : c.advance.peek.kind.startsExpr with
  | true =>
    have hfits := h op.rightBinding c.advance hc.advance
    rw [inner.readRight_of_starts hs]
    exact ⟨hfits.1, hfits.ends hs⟩
  | false =>
    rw [inner.readRight_of_not_starts hs]
    exact stands_missing hc hkind _

omit hscan h hc in
/-- The tokens behind a group stand behind the one at which its content ends. -/
theorem rest_readGroup_suffix (inner : Nested) (c : Cursor) :
    (inner.readGroup c).2.rest <:+ (inner.read 0 c.advance).2.advance.rest := by
  by_cases hclose : (inner.read 0 c.advance).2.peek.kind = .closeParen
  · simp only [inner.readGroup_of_closed hclose, List.suffix_rfl]
  · rw [inner.readGroup_of_not_closed hclose]
    exact Cursor.rest_advance_report .. ▸ Cursor.skipPastClose_suffix _

omit hscan in
theorem at_readGroup : (inner.readGroup c).2.At scan := by
  have hcontent := (h 0 c.advance hc.advance).1.at_end
  by_cases hclose : (inner.read 0 c.advance).2.peek.kind = .closeParen
  · rw [inner.readGroup_of_closed hclose]
    exact hcontent.advance
  · rw [inner.readGroup_of_not_closed hclose]
    exact (hcontent.report ..).skipPastClose

/-- The span of a group takes in that of its content, unless the content ends with the text: it
meets the limit there, or there is none. -/
theorem within_or_overhangs_readGroup (kind : c.peek.kind = .openParen) :
    let content := inner.read 0 c.advance
    let group := inner.readGroup c
    content.1.span.Within group.1.span ∨ scan.Overhangs content.1.span group.1.span ∧
      (content.2.halted = true ∨ content.1 = invalid (.point scan.stop)) := by
  intro content group
  obtain ⟨hstands, hends⟩ := h 0 c.advance hc.advance
  have hafter : group.2.At scan := at_readGroup h hc
  have hsuffix : group.2.rest <:+ content.2.advance.rest := rest_readGroup_suffix inner c
  have hpassed := hstands.at_end.advance.lastStop_le_of_suffix hscan hafter hsuffix
  have hspan : group.1.span = ⟨c.peek.span.start, group.2.lastStop⟩ := span_withSpan ..
  have hopened := c.lastStop_advance (by rw [kind]; nofun)
  have htoken := hc.peek_start_le_stop hscan
  have hstart : c.peek.span.start ≤ content.1.span.start :=
    Nat.le_trans htoken (hopened ▸ hstands.lastStop_le)
  -- Where no token is left, the group ends with the last one.
  have hnone (hrest : content.2.rest = []) (hstop : content.1.span.stop = scan.stop) :
      content.1.span.Within group.1.span ∨ scan.Overhangs content.1.span group.1.span := by
    have hnil : group.2.rest = [] := by
      rw [Cursor.rest_advance, hrest] at hsuffix
      exact List.suffix_nil.mp hsuffix
    rw [hspan]
    exact Scan.within_or_overhangs hstart hstop (hafter.lastStop_eq hnil)
  have hbehind (hpast : content.1.span.stop ≤ content.2.advance.lastStop) :
      content.1.span.Within group.1.span := by
    rw [hspan]
    exact ⟨hstart, Nat.le_trans hpast hpassed⟩
  rcases hends with (hpast | ⟨hhalted, hrest, hstop⟩) | ⟨-, hinvalid⟩
  · exact .inl (hbehind (Nat.le_trans hpast (hstands.at_end.lastStop_le_of_suffix hscan
      hstands.at_end.advance (Cursor.leads_advance _).rest_suffix)))
  · exact (hnone hrest hstop).imp_right fun hover => ⟨hover, .inl hhalted⟩
  · have hinvalid : content.1 = invalid content.2.peek.span := hinvalid
    cases hrest : content.2.rest with
    | nil =>
      have hpeek : content.2.peek.span = .point scan.stop := by
        rw [Cursor.peek, hrest, ← hstands.at_end.stop_eq]
        rfl
      rw [hpeek] at hinvalid
      exact (hnone hrest (by rw [hinvalid]; rfl)).imp_right fun hover => ⟨hover, .inr hinvalid⟩
    | cons token rest =>
      refine .inl (hbehind ?_)
      rw [hinvalid, Cursor.peek_of_rest hrest, Cursor.lastStop_advance_of_rest hrest]
      exact Nat.le_refl _

theorem fits_readGroup (hleads : inner.Leads) (kind : c.peek.kind = .openParen) :
    Stands scan c (inner.readGroup c) ∧ Ends scan (inner.readGroup c) := by
  have hafter : (inner.readGroup c).2.At scan := at_readGroup h hc
  have hspan : (inner.readGroup c).1.span = ⟨c.peek.span.start, (inner.readGroup c).2.lastStop⟩ :=
    span_withSpan ..
  have hopened := c.lastStop_advance (by rw [kind]; nofun)
  have hpassed := hc.advance.lastStop_le_of_suffix hscan hafter
    ((hleads 0 _).trans (inner.leads_content c)).rest_suffix
  have htoken := hc.peek_start_le_stop hscan
  have hframed := (h 0 c.advance hc.advance).1.framed.mono (inner.leads_content c).halted
  refine ⟨⟨hafter, ?_, ?_, ?_⟩, .inl (Nat.le_of_eq (congrArg Span.stop hspan))⟩
  · rw [hspan]
    exact hc.lastStop_le_peek hscan
  · rw [hspan]
    exact Nat.le_trans (hopened ▸ htoken) hpassed
  · show ((inner.read 0 c.advance).1.withSpan ⟨c.peek.span.start, _⟩).Framed scan _
    rcases within_or_overhangs_readGroup hscan h hc kind with hwithin | ⟨hover, hmet | hinvalid⟩
    · exact hframed.withSpan ⟨hafter.lastStop_le hscan, .inl (hspan ▸ hwithin)⟩
    · refine hframed.withSpan ⟨hafter.lastStop_le hscan, .inr ⟨?_, hspan ▸ hover⟩⟩
      exact (inner.leads_content c).halted hmet
    · rw [hinvalid]
      exact framed_invalid _

theorem fits_readOperand (hleads : inner.Leads) : Expr.Fits scan c (inner.readOperand c) := by
  have hstart := hc.lastStop_le_peek hscan
  have htoken := hc.peek_start_le_stop hscan
  refine inner.readOperand_cases (motive := Expr.Fits scan c) (fun hk => ?_)
    (fun sign kind => (fits_readSigned hscan h hc kind).imp_right .inl)
    (fun hk => (fits_readGroup hscan h hc hleads hk).imp_right .inl) fun hs => ?_
  · have hpassed := c.lastStop_advance (by rw [hk]; nofun)
    exact ⟨⟨hc.advance, hstart, htoken, framed_number _ _⟩, .inl (.inl (Nat.le_of_eq hpassed.symm))⟩
  · exact ⟨⟨hc.report .., hstart, htoken, framed_invalid _⟩,
      .inr ⟨hs, by rw [Cursor.peek_report]⟩⟩

omit hc in
/-- The loop over operators goes on from an operand that stands and ends where it should. -/
theorem fits_climb (hleads : inner.Leads) {start : Cursor} (least : Nat) (left : Expr) (c : Cursor)
    (hleft : Expr.Fits scan start (left, c)) :
    Expr.Fits scan start (inner.climb least left c) := by
  fun_induction inner.climb least left c with
  | case1 | case2 => exact hleft
  | case3 left c op hop hle right hlt ih =>
    obtain ⟨hstands, hends⟩ := fits_readRight h hleft.1.at_end hop
    exact ih (hleft.binary hscan hop hstands hends (leads_readRight hleads op c))

theorem fits_readExpr (hleads : inner.Leads) (least : Nat) :
    Expr.Fits scan c (inner.readExpr least c) :=
  fits_climb hscan h hleads least _ _ (fits_readOperand hscan h hc hleads)

end Nested

theorem parseAt_fits (limit levels : Nat) : (parseAt limit levels).Fits scan := by
  induction levels with
  | zero =>
    intro least c hc
    have hstop : c.lastStop ≤ c.stop := by
      rw [hc.stop_eq]
      exact Nat.le_trans (hc.lastStop_le hscan) (Scan.lastStop_le_stop hscan)
    exact ⟨⟨hc.halt limit, hstop, Nat.le_refl _, framed_invalid _⟩,
      .inl (.inr ⟨rfl, rfl, hc.stop_eq⟩)⟩
  | succ levels ih =>
    exact fun least c hc => Nested.fits_readExpr hscan ih hc (parseAt_leads limit levels) least

/-- Every node in the tree of a scan frames its operands. -/
theorem framed_readAll (limit : Nat) : (readAll limit scan.tokens scan.stop).1.Framed scan
    ((readAll limit scan.tokens scan.stop).2.halted = true) := by
  by_cases hnil : scan.tokens = []
  · rw [hnil]
    exact framed_invalid _
  · rw [readAll_of_ne_nil _ _ hnil]
    exact (parseAt_fits hscan limit limit 0 _ (Cursor.at_start scan)).1.framed.mono
      (Cursor.leads_reportTrailing _).halted

end Expr

namespace Analysis

/-- Spans lie inside spans. In the tree of every text, the operator and the left operand of a node
lie in the node. So does every other operand, unless the nesting limit is met: then the operand may
reach to the end of the text, and the node only to the end of the last token. Wherever a group
stands, its span takes in the one that its content had before, with the same exception, and another
one for a group without content at the end of the text. -/
theorem spans_contained (nesting : Nat) (text : String) :
    let scan := Scan.ofText text
    (∀ part ∈ (ofText nesting text).tree.postorder,
      part.Frames Span.Within fun a b =>
        a.Within b ∨ scan.MeetsLimit nesting ∧ scan.Overhangs a b) ∧
    ∀ (levels : Nat) (c : Cursor), c.At scan → c.peek.kind = .openParen →
      let content := (Expr.parseAt nesting levels).read 0 c.advance
      let group := (Expr.parseAt nesting levels).readGroup c
      content.1.span.Within group.1.span ∨ scan.Overhangs content.1.span group.1.span ∧
        (content.2.halted = true ∨ content.1 = .invalid (.point scan.stop)) := by
  intro scan
  have hscan : Ordered scan.tokensToEnd := Scan.ordered_ofText text
  refine ⟨fun part hpart => ?_, fun levels c => Expr.Nested.within_or_overhangs_readGroup hscan
    (Expr.parseAt_fits hscan nesting levels)⟩
  exact (Expr.framed_readAll hscan nesting part hpart).mono (fun _ _ hholds => hholds.1)
    fun _ _ hkeeps => hkeeps.2

/-- The sum in the group has its right operand cut off by the limit, at the end of the text. The
group ends in front of the blank there. -/
theorem spans_contained_limit :
    let scan := Scan.ofText "(1+2 "
    let c : Cursor := { rest := scan.tokens, stop := scan.stop }
    (ofText 2 "(1+2 ").tree =
        .binary .add ⟨2, 3⟩ (.number "1" ⟨1, 2⟩) (.invalid ⟨5, 5⟩) ⟨0, 4⟩ ∧
      (scan.MeetsLimit 2 ∧ scan.Overhangs ⟨5, 5⟩ ⟨0, 4⟩) ∧ c.At scan ∧
      scan.Overhangs ((Expr.parseAt 2 1).read 0 c.advance).1.span
        ((Expr.parseAt 2 1).readGroup c).1.span := by
  intro scan c
  have htree : (ofText 2 "(1+2 ").tree =
      .binary .add ⟨2, 3⟩ (.number "1" ⟨1, 2⟩) (.invalid ⟨5, 5⟩) ⟨0, 4⟩ := by decide +kernel
  have hroot := (spans_contained 2 "(1+2 ").1 _ (Expr.mem_postorder_self _)
  rw [htree] at hroot
  have hgroup := (spans_contained 2 "(1+2 ").2 1 c (Cursor.at_start scan) (by decide +kernel)
  exact ⟨htree, hroot.2.2.resolve_left (by decide), Cursor.at_start scan,
    (hgroup.resolve_left (by decide +kernel)).1⟩

/-- A node does not always take in its operands: the group ends in front of the blank, and the
operand that the limit cuts off stands behind it. -/
theorem operand_outside_node :
    ¬ ∀ (nesting : Nat) (text : String), ∀ part ∈ (ofText nesting text).tree.postorder,
      part.Frames Span.Within Span.Within := by
  intro h
  have htree : (ofText 2 "(1+2 ").tree =
      .binary .add ⟨2, 3⟩ (.number "1" ⟨1, 2⟩) (.invalid ⟨5, 5⟩) ⟨0, 4⟩ := by decide +kernel
  have hroot := h 2 "(1+2 " _ (Expr.mem_postorder_self _)
  rw [htree] at hroot
  exact absurd hroot.2.2 (by decide)

end Analysis

end Calculator

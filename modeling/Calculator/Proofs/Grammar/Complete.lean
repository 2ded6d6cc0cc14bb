import Calculator.Expr.Parser
import Calculator.Proofs.Grammar.Located

/-!
# Every phrase is read

A parser that has the levels which a derivation needs reads the tokens of the derivation and gives
its tree, spans included. The statement is about a phrase in front of further tokens. Reading it
comes to the loop over operators with the tree of the phrase on the left, so that a chain of
operators is read by the loop of its leftmost operand.

* `Cursor.Passes`: tokens were read without a report.
* `Grammar.ReadsAs`: the reading of a phrase, up to the operators behind it. Each production has a
  lemma, and `Located.readsAs` puts them together.
* `Located.parse_eq`, `Derives.parse_eq`: an expression is read as a whole.
* `Derives.tree_unique`: the grammar is unambiguous.
-/

namespace Calculator

namespace Cursor

/-- From `c` to `c'` the tokens up to `rest` were read, and nothing was reported. -/
structure Passes (c c' : Cursor) (rest : List Token) : Prop where
  rest_eq : c'.rest = rest
  log_eq : c'.log = c.log
  halted_eq : c'.halted = c.halted

theorem Passes.trans {c c' c'' : Cursor} {rest rest' : List Token} (h : c.Passes c' rest)
    (h' : c'.Passes c'' rest') : c.Passes c'' rest' :=
  ⟨h'.rest_eq, h'.log_eq.trans h.log_eq, h'.halted_eq.trans h.halted_eq⟩

theorem passes_advance {c : Cursor} {token : Token} {rest : List Token}
    (h : c.rest = token :: rest) : c.Passes c.advance rest :=
  ⟨rest_advance_of_rest h, c.log_advance, c.halted_advance⟩

theorem lastStop_advance_of_rest {c : Cursor} {token : Token} {rest : List Token}
    (h : c.rest = token :: rest) : c.advance.lastStop = token.span.stop := by
  rw [advance, h]

end Cursor

namespace Expr.Nested

theorem climb_of_stopsAt (inner : Nested) {least : Nat} {c : Cursor} (left : Expr)
    (h : Token.StopsAt least c.rest) : inner.climb least left c = (left, c) := by
  cases hop : c.peek.kind.binaryOp? with
  | none => exact inner.climb_of_none left hop
  | some op =>
    have hrest := Cursor.rest_eq_cons_of_binaryOp? hop
    exact inner.climb_of_lt left hop (h c.peek (by rw [hrest]; rfl) op hop)

end Expr.Nested

namespace Grammar

open Calculator.Expr

/-- In front of `rest`, a parser with the levels needed reads the tokens as the tree, and goes on
with the operators behind them. -/
def ReadsAs (limit : Nat) (phrase : Phrase) (tokens : List Token) (e : Expr) (need : Nat) : Prop :=
  ∀ (levels least : Nat) (c : Cursor) (rest : List Token), need ≤ levels + 1 →
    least ≤ phrase.strength → Token.StopsAt phrase.follow rest → c.rest = tokens ++ rest →
    ∃ c' : Cursor, c.Passes c' rest ∧
      (parseAt limit (levels + 1)).read least c = (parseAt limit levels).climb least e c'

variable {limit need : Nat} {phrase : Phrase} {tokens : List Token} {token : Token} {e : Expr}

/-- Reading stops behind the phrase if no operator holds it there. -/
theorem ReadsAs.read_eq (h : ReadsAs limit phrase tokens e need) (levels least : Nat) (c : Cursor)
    (rest : List Token) (hpos : 0 < need) (hneed : need ≤ levels)
    (hleast : least ≤ phrase.strength) (hfollow : Token.StopsAt phrase.follow rest)
    (hstop : Token.StopsAt least rest) (hrest : c.rest = tokens ++ rest) :
    ∃ c' : Cursor, c.Passes c' rest ∧ (parseAt limit levels).read least c = (e, c') := by
  obtain ⟨levels, rfl⟩ : ∃ k, levels = k + 1 := ⟨levels - 1, by omega⟩
  obtain ⟨c', hc, hread⟩ := h levels least c rest hneed hleast hfollow hrest
  refine ⟨c', hc, ?_⟩
  rw [hread, Nested.climb_of_stopsAt _ _ (hc.rest_eq ▸ hstop)]

theorem ReadsAs.weaken {weak : Phrase} (h : ReadsAs limit phrase tokens e need)
    (hstrength : weak.strength ≤ phrase.strength) (hfollow : weak.follow ≤ phrase.follow) :
    ReadsAs limit weak tokens e need :=
  fun levels least c rest hneed hleast hstop hrest =>
    h levels least c rest hneed (Nat.le_trans hleast hstrength) (hstop.mono hfollow) hrest

theorem readsAs_number (kind : token.kind = .number) :
    ReadsAs limit .primary [token] (.number token.text token.span) 1 := by
  intro levels least c rest _ _ _ hrest
  have hpeek : c.peek = token := Cursor.peek_of_rest hrest
  refine ⟨c.advance, Cursor.passes_advance hrest, ?_⟩
  show (parseAt limit levels).readExpr least c = _
  unfold Nested.readExpr
  rw [Nested.readOperand_of_number _ (by rw [hpeek, kind]), hpeek]

theorem readsAs_group {opened closed : Token} (open_kind : opened.kind = .openParen)
    (close_kind : closed.kind = .closeParen) (hpos : 0 < need)
    (h : ReadsAs limit .expression tokens e need) :
    ReadsAs limit .primary (opened :: (tokens ++ [closed]))
      (e.withSpan ⟨opened.span.start, closed.span.stop⟩) (need + 1) := by
  intro levels least c rest hneed _ _ hrest
  have hpeek : c.peek = opened := Cursor.peek_of_rest hrest
  have hopen := Cursor.passes_advance hrest
  have hclosed (bound : Nat) : Token.StopsAt bound (closed :: rest) :=
    Token.stopsAt_cons_of_none (by rw [close_kind]; rfl)
  obtain ⟨c', hc, hread⟩ := h.read_eq levels 0 c.advance (closed :: rest) hpos (by omega)
    (Nat.zero_le _) (hclosed _) (hclosed _) (by rw [hopen.rest_eq]; simp)
  have hclose : (((parseAt limit levels).read 0 c.advance).2.peek).kind = .closeParen := by
    rw [hread, Cursor.peek_of_rest hc.rest_eq, close_kind]
  refine ⟨c'.advance, (hopen.trans hc).trans (Cursor.passes_advance hc.rest_eq), ?_⟩
  show (parseAt limit levels).readExpr least c = _
  unfold Nested.readExpr
  rw [Nested.readOperand_of_openParen _ (by rw [hpeek, open_kind]),
    Nested.readGroup_of_closed _ hclose, hread, hpeek, Cursor.lastStop_advance_of_rest hc.rest_eq]

theorem readsAs_signed {sign : Sign} (kind : token.kind.sign? = some sign) (hpos : 0 < need)
    (hstart : ∃ first more, tokens = first :: more ∧ first.kind.startsExpr = true)
    (h : ReadsAs limit .signed tokens e need) :
    ReadsAs limit .signed (token :: tokens) (.signed sign e (token.span.cover e.span))
      (need + 1) := by
  intro levels least c rest hneed _ hstop hrest
  have hpeek : c.peek = token := Cursor.peek_of_rest hrest
  have hsign := Cursor.passes_advance hrest
  obtain ⟨first, more, rfl, hfirst⟩ := hstart
  have hstarts : c.advance.peek.kind.startsExpr = true := by
    rw [Cursor.peek_of_rest hsign.rest_eq, hfirst]
  obtain ⟨c', hc, hread⟩ := h.read_eq levels Sign.binding c.advance rest hpos (by omega)
    (Nat.le_refl _) hstop hstop hsign.rest_eq
  refine ⟨c', hsign.trans hc, ?_⟩
  show (parseAt limit levels).readExpr least c = _
  unfold Nested.readExpr
  rw [Nested.readOperand_of_sign _ (by rw [hpeek]; exact kind),
    Nested.readSigned_of_starts _ hstarts, hread, hpeek]

theorem readsAs_binary {op : BinaryOp} {lefts rights : List Token} {left right : Expr}
    {leftNeed rightNeed : Nat} (kind : token.kind.binaryOp? = some op) (hpos : 0 < rightNeed)
    (hstart : ∃ first more, rights = first :: more ∧ first.kind.startsExpr = true)
    (hleft : ReadsAs limit (.leftOf op) lefts left leftNeed)
    (hright : ReadsAs limit (.rightOf op) rights right rightNeed) :
    ReadsAs limit (.ofOp op) (lefts ++ token :: rights)
      (.binary op token.span left right (left.span.cover right.span))
      (max leftNeed (rightNeed + 1)) := by
  intro levels least c rest hneed hleast hstop hrest
  -- The left operand is read first, and the loop meets the operator behind it.
  obtain ⟨c₁, hc₁, hread₁⟩ := hleft levels least c (token :: rights ++ rest) (by omega)
    (Nat.le_trans hleast (Phrase.strength_ofOp_le_leftOf op))
    (Token.stopsAt_cons kind (Phrase.leftBinding_lt_follow_leftOf op)) (by rw [hrest]; simp)
  have hpeek : c₁.peek = token := Cursor.peek_of_rest hc₁.rest_eq
  have hop := Cursor.passes_advance hc₁.rest_eq
  obtain ⟨first, more, rfl, hfirst⟩ := hstart
  have hstarts : c₁.advance.peek.kind.startsExpr = true := by
    rw [Cursor.peek_of_rest hop.rest_eq, hfirst]
  obtain ⟨c₂, hc₂, hread₂⟩ := hright.read_eq levels op.rightBinding c₁.advance rest hpos
    (by omega) (Phrase.rightBinding_le_rightOf op) (hstop.mono (Phrase.follow_ofOp_le_rightOf op))
    (Phrase.follow_ofOp op ▸ hstop) hop.rest_eq
  refine ⟨c₂, (hc₁.trans hop).trans hc₂, ?_⟩
  rw [hread₁, Nested.climb_of_le _ left (hpeek ▸ kind) (Phrase.strength_ofOp op ▸ hleast),
    Nested.readRight_of_starts _ hstarts, hread₂, hpeek]

/-- The tokens of a phrase are read as its tree. -/
theorem Located.readsAs (limit : Nat) (h : Located phrase tokens e need) :
    ReadsAs limit phrase tokens e need := by
  induction h with
  | number kind => exact readsAs_number kind
  | group open_kind close_kind inner ih =>
    exact readsAs_group open_kind close_kind inner.derives.need_pos ih
  | signed kind operand ih =>
    exact readsAs_signed kind operand.derives.need_pos operand.derives.starts ih
  | binary kind hl hr ihl ihr =>
    exact readsAs_binary kind hr.derives.need_pos hr.derives.starts ihl ihr
  | ofPrimary _ ih | ofSigned _ ih | ofFactor _ ih | ofTerm _ ih =>
    exact ih.weaken (by decide) (by decide)

/-- A text that is an expression as a whole is read as its tree, without a report. -/
theorem Located.parse_eq (h : Located .expression tokens e need) (hneed : need ≤ limit)
    (stop : Nat) : parse limit tokens stop = (e, []) := by
  obtain ⟨first, more, rfl, -⟩ := h.derives.starts
  obtain ⟨c', hc, hread⟩ := (h.readsAs limit).read_eq limit 0
    { rest := first :: more, stop } [] h.derives.need_pos hneed (Nat.zero_le _)
    (Token.stopsAt_nil _) (Token.stopsAt_nil _) (List.append_nil _).symm
  have hfinish : c'.peek.kind = .finish := by
    rw [Cursor.peek, hc.rest_eq]
    rfl
  unfold parse
  simp only [List.isEmpty_cons, Bool.false_eq_true, ↓reduceIte, hread, hfinish, hc.log_eq,
    List.reverse_nil]

/-- Up to spans, the tree is that of the grammar. -/
theorem Derives.parse_eq (h : Derives .expression tokens e need) (hneed : need ≤ limit)
    (stop : Nat) : (parse limit tokens stop).2 = [] ∧ (parse limit tokens stop).1.bare = e := by
  obtain ⟨located, rfl, hlocated⟩ := h.exists_located
  rw [hlocated.parse_eq hneed stop]
  exact ⟨rfl, rfl⟩

/-- The grammar is unambiguous: the parser, which gives one tree, gives that of any derivation. -/
theorem Derives.tree_unique {e' : Expr} {need' : Nat} (h : Derives .expression tokens e need)
    (h' : Derives .expression tokens e' need') : e = e' := by
  have hl := (h.parse_eq (Nat.le_max_left need need') 0).2
  have hr := (h'.parse_eq (Nat.le_max_right need need') 0).2
  rw [← hl, hr]

end Grammar

end Calculator

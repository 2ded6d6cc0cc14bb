import Calculator.Proofs.Acceptance
import Calculator.Proofs.Fault
import Mathlib.Control.Monad.Basic

/-!
# The levels of a text and of its tree

A text pays for parentheses, which leave nothing in the tree; an evaluation pays for the leftmost
operand of a chain, which the text has for free. The two counts still stay together: what a chain
pays for its leftmost operand is the level that the operand stands below the chain, and this is
paid once. A tree that holds invalid parts may have one level more, since a part that is given up at
the limit is a node all the same.

* `Grammar.Derives.nesting_le`: the tree of a phrase and the levels that the phrase needs.
* `Expr.nesting_parse_le`: the tree that a parser gives for any tokens.
* `Limits.nesting_bounds_depth`: within these bounds, no evaluation stops at its limit.
-/

namespace Calculator

namespace Expr

theorem isBinary_mapSpan (f : Span → Span) (e : Expr) : (e.mapSpan f).isBinary = e.isBinary := by
  cases e <;> rfl

theorem spineNesting_mapSpan (f : Span → Span) (e : Expr) :
    (e.mapSpan f).spineNesting = e.spineNesting := by
  induction e with
  | number | invalid => rfl
  | signed sign operand span ih => rw [mapSpan, spineNesting, spineNesting, ih, isBinary_mapSpan]
  | binary op opSpan left right span ihl ihr =>
    rw [mapSpan, spineNesting, spineNesting, ihl, ihr, isBinary_mapSpan]

/-- Spans cost no level. -/
theorem nesting_mapSpan (f : Span → Span) (e : Expr) : (e.mapSpan f).nesting = e.nesting := by
  rw [nesting, nesting, spineNesting_mapSpan, isBinary_mapSpan]

theorem nesting_withSpan (span : Span) (e : Expr) : (e.withSpan span).nesting = e.nesting := by
  cases e <;> rfl

theorem spineNesting_le_nesting (e : Expr) : e.spineNesting ≤ e.nesting := Nat.le_add_right ..

end Expr

/-! ## Phrases -/

namespace Grammar

variable {phrase : Phrase} {tokens : List Token} {e : Expr} {need : Nat}

/-- The spine of a phrase uses no more levels than the phrase needs, and no more does the tree of a
phrase without an operator of its own. -/
theorem Derives.spineNesting_le (h : Derives phrase tokens e need) :
    e.spineNesting ≤ need ∧ (Sign.binding ≤ phrase.strength → e.nesting ≤ need) := by
  induction h with
  | number => exact ⟨Nat.le_refl 1, fun _ => Nat.le_refl 1⟩
  | @group opened closed tokens e need open_kind close_kind inner ih =>
    have := e.nesting_le_spineNesting
    exact ⟨by omega, fun _ => by omega⟩
  | signed kind operand ih =>
    have hoperand := Nat.succ_le_succ (ih.2 (Nat.le_refl _))
    exact ⟨hoperand, fun _ => hoperand⟩
  | @binary token lefts rights op left right leftNeed rightNeed kind hl hr ihl ihr =>
    have hright := Nat.le_trans right.nesting_le_spineNesting (Nat.succ_le_succ ihr.1)
    have hspine : max left.spineNesting right.nesting ≤ max leftNeed (rightNeed + 1) := by omega
    refine ⟨hspine, fun hle => ?_⟩
    rw [Phrase.strength_ofOp] at hle
    exact absurd op.leftBinding_lt_sign (Nat.not_lt_of_le hle)
  | ofPrimary _ ih => exact ⟨ih.1, fun _ => ih.2 (by decide)⟩
  | ofSigned _ ih | ofFactor _ ih | ofTerm _ ih =>
    exact ⟨ih.1, fun hle => absurd hle (by decide)⟩

/-- A tree uses at most one level more than its tokens need. -/
theorem Derives.nesting_le (h : Derives phrase tokens e need) : e.nesting ≤ need + 1 :=
  Nat.le_trans e.nesting_le_spineNesting (Nat.succ_le_succ h.spineNesting_le.1)

end Grammar

/-! ## Trees of any tokens -/

namespace Expr

namespace Nested

/-- With so many levels left, the spines of the trees that are read use one level more at most, and
so do the operands of signs. -/
structure Shallow (inner : Nested) (levels : Nat) : Prop where
  spine : ∀ least c, (inner.read least c).1.spineNesting ≤ levels + 1
  operand : ∀ c, (inner.read Sign.binding c).1.nesting ≤ levels + 1

/-- No operator belongs to the operand of a sign. -/
theorem climb_sign (inner : Nested) (left : Expr) (c : Cursor) :
    inner.climb Sign.binding left c = (left, c) := by
  cases hop : c.peek.kind.binaryOp? with
  | none => exact inner.climb_of_none left hop
  | some op => exact inner.climb_of_lt left hop op.leftBinding_lt_sign

variable {inner : Nested} {levels : Nat} (h : inner.Shallow levels)
include h

theorem nesting_read_le (least : Nat) (c : Cursor) :
    (inner.read least c).1.nesting ≤ levels + 2 :=
  Nat.le_trans (nesting_le_spineNesting _) (Nat.succ_le_succ (h.spine least c))

theorem nesting_readSigned_le (sign : Sign) (c : Cursor) :
    (inner.readSigned sign c).1.nesting ≤ levels + 2 := by
  cases hs : c.advance.peek.kind.startsExpr with
  | true =>
    rw [inner.readSigned_of_starts hs, nesting_signed]
    exact Nat.succ_le_succ (h.operand c.advance)
  | false =>
    rw [inner.readSigned_of_not_starts hs, nesting_signed]
    exact Nat.le_add_left 2 levels

theorem nesting_readGroup_le (c : Cursor) : (inner.readGroup c).1.nesting ≤ levels + 2 := by
  show ((inner.read 0 c.advance).1.withSpan _).nesting ≤ levels + 2
  rw [nesting_withSpan]
  exact nesting_read_le h 0 c.advance

theorem nesting_readOperand_le (c : Cursor) : (inner.readOperand c).1.nesting ≤ levels + 2 := by
  unfold readOperand
  dsimp only
  split
  · exact Nat.le_add_left 1 (levels + 1)
  · exact nesting_readSigned_le h _ c
  · exact nesting_readSigned_le h _ c
  · exact nesting_readGroup_le h c
  · exact Nat.le_add_left 1 (levels + 1)

theorem nesting_readRight_le (op : BinaryOp) (c : Cursor) :
    (inner.readRight op c).1.nesting ≤ levels + 2 := by
  cases hs : c.advance.peek.kind.startsExpr with
  | true =>
    rw [inner.readRight_of_starts hs]
    exact nesting_read_le h _ _
  | false =>
    rw [inner.readRight_of_not_starts hs]
    exact Nat.le_add_left 1 (levels + 1)

/-- The loop over operators adds right operands to a spine. -/
theorem spineNesting_climb_le (least : Nat) (left : Expr) (c : Cursor)
    (hleft : left.spineNesting ≤ levels + 2) :
    (inner.climb least left c).1.spineNesting ≤ levels + 2 := by
  fun_induction inner.climb least left c with
  | case1 => exact hleft
  | case2 => exact hleft
  | case3 left c op hop hle right hlt ih =>
    exact ih (Nat.max_le.mpr ⟨hleft, nesting_readRight_le h op c⟩)

theorem shallow_readExpr (least : Nat) (c : Cursor) :
    (inner.readExpr least c).1.spineNesting ≤ levels + 2 ∧
      (inner.readExpr Sign.binding c).1.nesting ≤ levels + 2 := by
  have hoperand := nesting_readOperand_le h c
  refine ⟨spineNesting_climb_le h least _ _
    (Nat.le_trans (spineNesting_le_nesting _) hoperand), ?_⟩
  rw [readExpr, climb_sign]
  exact hoperand

end Nested

theorem parseAt_shallow (limit levels : Nat) : (parseAt limit levels).Shallow levels := by
  induction levels with
  | zero => exact ⟨fun _ _ => Nat.le_refl 1, fun _ => Nat.le_refl 1⟩
  | succ levels ih =>
    exact ⟨fun least c => (Nested.shallow_readExpr ih least c).1,
      fun c => (Nested.shallow_readExpr ih 0 c).2⟩

/-- The tree of any tokens, whatever is reported on them, uses at most two levels more than the
parser may. -/
theorem nesting_parse_le (limit : Nat) (tokens : List Token) (stop : Nat) :
    (parse limit tokens stop).1.nesting ≤ limit + 2 := by
  unfold parse
  dsimp only
  split
  · exact Nat.le_add_left 1 (limit + 1)
  · exact Nested.nesting_read_le (parseAt_shallow limit limit) 0 _

/-- With the levels for a tree, no evaluation of it stops at its limit. -/
theorem eval_ne_tooDeep {e : Expr} {levels : Nat} (h : e.nesting ≤ levels) (depth limit : Nat) :
    e.eval levels ≠ .error (.tooDeep depth limit) := by
  rw [eval_eq_value h]
  exact e.value_ne_tooDeep depth limit

end Expr

namespace Limits

variable {limits : Limits} {text : String} {tree : Expr}

/-- The tree of an accepted text uses at most one level more than a text may. -/
theorem nesting_le_of_parse (h : limits.parse text = .ok tree) :
    tree.nesting ≤ limits.nesting + 1 := by
  obtain ⟨need, hneed, hd⟩ := derives_of_parse h
  have hle := hd.nesting_le
  rw [Expr.bare, Expr.nesting_mapSpan] at hle
  exact Nat.le_trans hle (Nat.succ_le_succ hneed)

/-- What bounds the levels of a text bounds those of its tree. An evaluation with one level more
than texts may have never stops at its limit on the tree of an accepted text; with two more, it
never does on the tree of any text, invalid parts included. So a calculation under the limits that
are used unless others are given never fails for its depth, however long a chain is. -/
theorem nesting_bounds_depth :
    (∀ (limits limits' : Limits) (text : String) (tree : Expr), limits.parse text = .ok tree →
      limits.nesting + 1 ≤ limits'.depth →
        ∀ depth limit, limits'.evaluate tree ≠ .error (.tooDeep depth limit)) ∧
    (∀ (nesting : Nat) (limits' : Limits) (text : String), nesting + 2 ≤ limits'.depth →
      ∀ depth limit,
        limits'.evaluate (Analysis.ofText nesting text).tree ≠ .error (.tooDeep depth limit)) ∧
    ∀ (text : String) (depth limit : Nat),
      ({} : Limits).calculate text ≠ .error (.undefined (.tooDeep depth limit)) := by
  refine ⟨fun limits limits' text tree h hdepth => ?_, fun nesting limits' text hdepth => ?_,
    fun text depth limit h => ?_⟩
  · exact Expr.eval_ne_tooDeep (Nat.le_trans (nesting_le_of_parse h) hdepth)
  · exact Expr.eval_ne_tooDeep (Nat.le_trans (Expr.nesting_parse_le nesting _ _) hdepth)
  · obtain ⟨tree, hparse, hresult⟩ := calculate_eq_undefined_iff.mp h
    have hnesting : tree.nesting ≤ 1024 := Nat.le_trans (nesting_le_of_parse hparse) (by decide)
    exact Expr.eval_ne_tooDeep hnesting depth limit hresult

/-- A chain with a sign on its leftmost operand uses the one level more than its text. Where the
text may have a level less, the operand of the sign becomes an invalid part. -/
theorem nesting_bounds_depth_sign :
    let tree : Expr := .binary .add ⟨2, 3⟩ (.signed .minus (.number "1" ⟨1, 2⟩) ⟨0, 2⟩)
      (.number "2" ⟨3, 4⟩) ⟨0, 4⟩
    ({ nesting := 2 } : Limits).parse "-1+2" = .ok tree ∧
      (∀ depth limit, ({ depth := 3 } : Limits).evaluate tree ≠ .error (.tooDeep depth limit)) ∧
      ∀ depth limit, ({ depth := 3 } : Limits).evaluate (Analysis.ofText 1 "-1+2").tree ≠
        .error (.tooDeep depth limit) := by
  intro tree
  have hparse : ({ nesting := 2 } : Limits).parse "-1+2" = .ok tree := by decide +kernel
  exact ⟨hparse,
    nesting_bounds_depth.1 { nesting := 2 } { depth := 3 } "-1+2" tree hparse (by decide),
    nesting_bounds_depth.2.1 1 { depth := 3 } "-1+2" (by decide)⟩

end Limits

end Calculator

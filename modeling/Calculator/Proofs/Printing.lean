import Calculator.Proofs.PrintedChains
import Calculator.Proofs.Spelling

/-!
# Printed texts are phrases

A printed tree is scanned as a phrase of the grammar with this tree. A place that asks for
precedence `level` is one for a phrase of the kind `Phrase.ofLevel level`, so that the printer puts
parentheses around an operand exactly where the grammar has no other phrase for it.

* `Expr.spells_printAt`: the text of a tree is a phrase with this tree, for which `Expr.printNeed`
  levels are needed.
* `Grammar.Derives.printNeed_le`: no phrase with the tree needs fewer levels.
* `Grammar.Derives.wellFormed`: a tree that comes from a text can be printed.
-/

namespace Calculator

namespace Grammar.Phrase

/-- The phrase that stands at a place which asks for precedence `level`. -/
def ofLevel : Nat → Phrase
  | 0 | 1 => expression
  | 2 => term
  | 3 => factor
  | 4 => signed
  | _ => primary

/-- The precedence of the phrase. -/
def level : Phrase → Nat
  | expression => 1
  | term => 2
  | factor => 3
  | signed => 4
  | primary => 5

theorem ofLevel_leftLevel (op : BinaryOp) : ofLevel op.leftLevel = leftOf op := by
  cases op <;> rfl

theorem ofLevel_rightLevel (op : BinaryOp) : ofLevel op.rightLevel = rightOf op := by
  cases op <;> rfl

theorem level_leftOf (op : BinaryOp) : (leftOf op).level = op.leftLevel := by
  cases op <;> rfl

theorem level_rightOf (op : BinaryOp) : (rightOf op).level = op.rightLevel := by
  cases op <;> rfl

theorem level_ofOp (op : BinaryOp) : (ofOp op).level = op.precedence := by
  cases op <;> rfl

theorem strength_expression_le (phrase : Phrase) : expression.strength ≤ phrase.strength := by
  cases phrase <;> decide

theorem strength_le_primary (phrase : Phrase) : phrase.strength ≤ primary.strength := by
  cases phrase <;> decide

/-- A place that does not ask for more than the precedence of a phrase has room for it. -/
theorem strength_ofLevel_le {level : Nat} {phrase : Phrase} (h : level ≤ phrase.level) :
    (ofLevel level).strength ≤ phrase.strength := by
  revert level
  cases phrase <;> decide

end Grammar.Phrase

open Grammar

/-- A text in parentheses is a phrase of any kind. Without them it has to be of a kind for which
there is room. -/
theorem Grammar.Spells.parenthesizeIf {phrase : Phrase} {level precedence : Nat} {text : List Char}
    {e : Expr} {need : Nat} (h : Spells phrase text e need) (hlevel : phrase.level = precedence) :
    Spells (.ofLevel level) (Expr.parenthesizeIf (precedence < level) text) e
      (need + (decide (precedence < level)).toNat) := by
  by_cases hlt : precedence < level
  · simp only [hlt, decide_true]
    exact (h.weaken phrase.strength_expression_le).group.weaken (Phrase.strength_le_primary _)
  · simp only [hlt, decide_false]
    exact h.weaken (Phrase.strength_ofLevel_le (hlevel ▸ Nat.le_of_not_lt hlt))

namespace Expr

/-- The tree has no invalid part, and the text of each number is one literal. -/
def WellFormed : Expr → Prop
  | number text _ => Numeral.IsLiteral text
  | signed _ operand _ => operand.WellFormed
  | binary _ _ left right _ => left.WellFormed ∧ right.WellFormed
  | invalid _ => False

instance decidableWellFormed : ∀ e : Expr, Decidable e.WellFormed
  | number text _ => inferInstanceAs (Decidable (Numeral.IsLiteral text))
  | signed _ operand _ => decidableWellFormed operand
  | binary _ _ left right _ =>
    @instDecidableAnd _ _ (decidableWellFormed left) (decidableWellFormed right)
  | invalid _ => .isFalse id

/-- The levels that the text of a tree needs at a place that asks for precedence `level`. -/
def printNeed (level : Nat) : Expr → Nat
  | number .. | invalid _ => 1
  | signed _ operand _ =>
    operand.printNeed Sign.precedence + 1 + (decide (Sign.precedence < level)).toNat
  | binary op _ left right _ =>
    max (left.printNeed op.leftLevel) (right.printNeed op.rightLevel + 1) +
      (decide (op.precedence < level)).toNat

theorem spells_printAt {e : Expr} (h : e.WellFormed) (level : Nat) :
    Spells (.ofLevel level) (e.printAt level) e.bare (e.printNeed level) := by
  induction e generalizing level with
  | number text span =>
    exact (spells_number h).weaken (Phrase.strength_le_primary _)
  | invalid span => exact h.elim
  | signed sign operand span ih =>
    exact ((ih h Sign.precedence).signed sign).parenthesizeIf rfl
  | binary op opSpan left right span ihl ihr =>
    have hl := ihl h.1 op.leftLevel
    have hr := ihr h.2 op.rightLevel
    rw [Phrase.ofLevel_leftLevel] at hl
    rw [Phrase.ofLevel_rightLevel] at hr
    exact (hl.binary op hr).parenthesizeIf (Phrase.level_ofOp op)

/-- Parentheses cost one level. -/
theorem printNeed_le_add_one (level level' : Nat) (e : Expr) :
    e.printNeed level ≤ e.printNeed level' + 1 := by
  cases e with
  | number | invalid => exact Nat.le_succ 1
  | signed sign operand span =>
    have := Bool.toNat_le (decide (Sign.precedence < level))
    simp only [printNeed]
    omega
  | binary op opSpan left right span =>
    have := Bool.toNat_le (decide (op.precedence < level))
    simp only [printNeed]
    omega

section MapSpan

variable (f : Span → Span)

theorem wellFormed_mapSpan (e : Expr) : (e.mapSpan f).WellFormed ↔ e.WellFormed := by
  induction e with
  | number | invalid => exact Iff.rfl
  | signed sign operand span ih => exact ih
  | binary op opSpan left right span ihl ihr => exact and_congr ihl ihr

theorem printAt_mapSpan (level : Nat) (e : Expr) :
    (e.mapSpan f).printAt level = e.printAt level := by
  induction e generalizing level with
  | number | invalid => rfl
  | signed sign operand span ih => simp only [mapSpan, printAt, ih]
  | binary op opSpan left right span ihl ihr => simp only [mapSpan, printAt, ihl, ihr]

theorem printNeed_mapSpan (level : Nat) (e : Expr) :
    (e.mapSpan f).printNeed level = e.printNeed level := by
  induction e generalizing level with
  | number | invalid => rfl
  | signed sign operand span ih => simp only [mapSpan, printNeed, ih]
  | binary op opSpan left right span ihl ihr => simp only [mapSpan, printNeed, ihl, ihr]

end MapSpan

theorem print_eq (e : Expr) : e.print = String.ofList (e.printAt 0) := by
  rw [← String.toList_inj, print, toList_write, String.toList_empty, List.nil_append,
    String.toList_ofList]

/-- Trees that are equal up to spans have the same text. -/
theorem print_eq_of_bare_eq {e e' : Expr} (h : e.bare = e'.bare) : e.print = e'.print := by
  rw [print_eq, print_eq, ← printAt_mapSpan (fun _ => .point 0) 0 e, ← printAt_mapSpan _ 0 e']
  exact congrArg (fun t : Expr => String.ofList (t.printAt 0)) h

end Expr

namespace Grammar.Derives

variable {phrase : Phrase} {tokens : List Token} {e : Expr} {need : Nat}

/-- No derivation of a tree needs fewer levels than its text. Parentheses that the text leaves out
would only cost more. -/
theorem printNeed_le (h : Derives phrase tokens e need) {level : Nat}
    (hlevel : level ≤ phrase.level) : e.printNeed level ≤ need := by
  induction h generalizing level with
  | number => exact Nat.le_refl 1
  | group open_kind close_kind inner ih =>
    exact Nat.le_trans (Expr.printNeed_le_add_one level 0 _) (Nat.succ_le_succ (ih (Nat.zero_le _)))
  | signed kind operand ih =>
    have hwrap : ¬ Sign.precedence < level := Nat.not_lt_of_le hlevel
    simp only [Expr.printNeed, hwrap, decide_false, Bool.toNat_false]
    exact Nat.succ_le_succ (ih (Nat.le_refl _))
  | @binary token lefts rights op left right leftNeed rightNeed kind hl hr ihl ihr =>
    have hwrap : ¬ op.precedence < level := Nat.not_lt_of_le (Phrase.level_ofOp op ▸ hlevel)
    have hleft := ihl (Nat.le_of_eq (Phrase.level_leftOf op).symm)
    have hright := ihr (Nat.le_of_eq (Phrase.level_rightOf op).symm)
    simp only [Expr.printNeed, hwrap, decide_false, Bool.toNat_false]
    omega
  | ofPrimary _ ih | ofSigned _ ih | ofFactor _ ih | ofTerm _ ih =>
    exact ih (Nat.le_trans hlevel (by decide))

/-- A tree made of tokens is well formed if the text of each number token is a literal. -/
theorem wellFormed (h : Derives phrase tokens e need)
    (hliteral : ∀ token ∈ tokens, token.kind = .number → Numeral.IsLiteral token.text) :
    e.WellFormed := by
  induction h with
  | @number token kind => exact hliteral token List.mem_cons_self kind
  | @group opened closed tokens e need open_kind close_kind inner ih =>
    exact ih fun token hmem => hliteral token (by simp [hmem])
  | @signed token tokens sign e need kind operand ih =>
    exact ih fun token hmem => hliteral token (by simp [hmem])
  | @binary token lefts rights op left right leftNeed rightNeed kind hl hr ihl ihr =>
    exact ⟨ihl fun token hmem => hliteral token (by simp [hmem]),
      ihr fun token hmem => hliteral token (by simp [hmem])⟩
  | ofPrimary _ ih | ofSigned _ ih | ofFactor _ ih | ofTerm _ ih => exact ih hliteral

end Grammar.Derives

end Calculator

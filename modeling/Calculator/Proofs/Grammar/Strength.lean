import Calculator.Grammar

/-!
# The strengths of phrases

The grammar orders its phrases by what stands inside them, a parser by how strongly an operator
holds its operands. `Phrase.strength` joins the two: it is the least strength with which an operator
in the phrase holds its left operand.

* `Derives.weaken`: a phrase is also a phrase of every weaker kind.
* `Phrase.Admits`: reading the operators of a given strength or more gives a phrase of this kind.
* `Phrase.leftOf_of_lt`: an operator that a right operand leaves behind may hold what was read.
* `Token.StopsAt`: no operator in front of the tokens takes what stands before it.
-/

namespace Calculator

namespace Grammar

namespace Phrase

/-- The least strength with which an operator in the phrase holds its left operand. A signed operand
has no operator of its own; a primary is stronger still. -/
def strength : Phrase → Nat
  | expression => BinaryOp.add.leftBinding
  | term => BinaryOp.mul.leftBinding
  | factor => BinaryOp.caret.leftBinding
  | signed => Sign.binding
  | primary => Sign.binding + 1

/-- The operators that may stand behind the phrase, and would not become a part of it, hold their
left operand with less than this. -/
def follow : Phrase → Nat
  | expression => BinaryOp.add.rightBinding
  | term => BinaryOp.mul.rightBinding
  | factor => BinaryOp.caret.rightBinding
  | signed | primary => Sign.binding

/-- An operand with the operators behind it, as long as they hold it with `least` or more, is a
phrase of this kind. -/
def Admits (phrase : Phrase) (least : Nat) : Prop :=
  phrase.strength ≤ Sign.binding ∧ ∀ op : BinaryOp, least ≤ op.leftBinding →
    phrase.strength ≤ op.leftBinding

theorem strength_ofOp (op : BinaryOp) : (ofOp op).strength = op.leftBinding := by
  cases op <;> rfl

theorem follow_ofOp (op : BinaryOp) : (ofOp op).follow = op.rightBinding := by
  cases op <;> rfl

theorem strength_ofOp_le_leftOf (op : BinaryOp) : (ofOp op).strength ≤ (leftOf op).strength := by
  cases op <;> decide

theorem rightBinding_le_rightOf (op : BinaryOp) : op.rightBinding ≤ (rightOf op).strength := by
  cases op <;> decide

/-- The operator itself may stand behind its left operand. -/
theorem leftBinding_lt_follow_leftOf (op : BinaryOp) : op.leftBinding < (leftOf op).follow := by
  cases op <;> decide

/-- What may stand behind an operator's phrase may stand behind its right operand. -/
theorem follow_ofOp_le_rightOf (op : BinaryOp) : (ofOp op).follow ≤ (rightOf op).follow := by
  cases op <;> decide

theorem strength_leftOf_le_sign (op : BinaryOp) : (leftOf op).strength ≤ Sign.binding := by
  cases op <;> decide

/-- An operator that the right operand of `op` leaves behind may hold the phrase of `op`. -/
theorem leftOf_of_lt {op behind : BinaryOp} (h : behind.leftBinding < op.rightBinding) :
    (leftOf behind).strength ≤ (ofOp op).strength := by
  revert h
  cases op <;> cases behind <;> decide

theorem expression_admits : expression.Admits 0 :=
  ⟨by decide, fun op _ => by cases op <;> decide⟩

theorem signed_admits : signed.Admits Sign.binding :=
  ⟨Nat.le_refl _, fun op h => absurd h (Nat.not_le_of_lt op.leftBinding_lt_sign)⟩

theorem rightOf_admits (op : BinaryOp) : (rightOf op).Admits op.rightBinding := by
  refine ⟨by cases op <;> decide, fun behind h => ?_⟩
  revert h
  cases op <;> cases behind <;> decide

end Phrase

variable {tokens : List Token} {e : Expr} {need : Nat}

/-- A phrase is also a phrase of every weaker kind. -/
theorem Derives.weaken {weak strong : Phrase} (h : Derives strong tokens e need)
    (hle : weak.strength ≤ strong.strength) : Derives weak tokens e need := by
  cases strong with
  | expression =>
    cases weak with
    | expression => exact h
    | _ => exact absurd hle (by decide)
  | term =>
    cases weak with
    | expression => exact .ofTerm h
    | term => exact h
    | _ => exact absurd hle (by decide)
  | factor =>
    cases weak with
    | expression => exact .ofTerm (.ofFactor h)
    | term => exact .ofFactor h
    | factor => exact h
    | _ => exact absurd hle (by decide)
  | signed =>
    cases weak with
    | expression => exact .ofTerm (.ofFactor (.ofSigned h))
    | term => exact .ofFactor (.ofSigned h)
    | factor => exact .ofSigned h
    | signed => exact h
    | primary => exact absurd hle (by decide)
  | primary =>
    cases weak with
    | expression => exact .ofTerm (.ofFactor (.ofSigned (.ofPrimary h)))
    | term => exact .ofFactor (.ofSigned (.ofPrimary h))
    | factor => exact .ofSigned (.ofPrimary h)
    | signed => exact .ofPrimary h
    | primary => exact h

/-- A phrase starts with a token that starts expressions. -/
theorem Derives.starts {phrase : Phrase} (h : Derives phrase tokens e need) :
    ∃ token rest, tokens = token :: rest ∧ token.kind.startsExpr = true := by
  induction h with
  | @number token kind => exact ⟨token, [], rfl, by rw [kind]; rfl⟩
  | @group opened closed tokens e need open_kind close_kind inner ih =>
    exact ⟨opened, _, rfl, by rw [open_kind]; rfl⟩
  | @signed token tokens sign e need kind operand ih =>
    refine ⟨token, tokens, rfl, ?_⟩
    cases hk : token.kind <;> simp_all [Token.Kind.sign?, Token.Kind.startsExpr]
  | @binary token lefts rights op left right leftNeed rightNeed kind hl hr ihl ihr =>
    obtain ⟨first, rest, rfl, hfirst⟩ := ihl
    exact ⟨first, rest ++ token :: rights, rfl, hfirst⟩
  | ofPrimary _ ih | ofSigned _ ih | ofFactor _ ih | ofTerm _ ih => exact ih

end Grammar

/-- Every operator at the front of the tokens holds what stands before it with less than `bound`. -/
def Token.StopsAt (bound : Nat) (tokens : List Token) : Prop :=
  ∀ token ∈ tokens.head?, ∀ op, token.kind.binaryOp? = some op → op.leftBinding < bound

namespace Token

theorem StopsAt.mono {bound bound' : Nat} {tokens : List Token} (h : StopsAt bound tokens)
    (hle : bound ≤ bound') : StopsAt bound' tokens :=
  fun token ht op hop => Nat.lt_of_lt_of_le (h token ht op hop) hle

theorem stopsAt_cons {bound : Nat} {token : Token} {op : BinaryOp} {tokens : List Token}
    (kind : token.kind.binaryOp? = some op) (h : op.leftBinding < bound) :
    StopsAt bound (token :: tokens) := by
  intro token' ht op' hop
  obtain rfl : token = token' := by simpa using ht
  rw [kind, Option.some.injEq] at hop
  rwa [← hop]

/-- Where no operator stands, none holds what was read. -/
theorem stopsAt_cons_of_none {bound : Nat} {token : Token} {tokens : List Token}
    (kind : token.kind.binaryOp? = none) : StopsAt bound (token :: tokens) := by
  intro token' ht op hop
  obtain rfl : token = token' := by simpa using ht
  rw [kind] at hop
  nomatch hop

theorem stopsAt_nil (bound : Nat) : StopsAt bound [] := nofun

end Token

end Calculator

import Calculator.Proofs.Exact.Value
import Calculator.Proofs.RoundTrip
import Mathlib.Control.Monad.Basic

/-!
# Printed integers

The text of an integer is its digits, behind a minus if it is negative. Read as an expression, it is
a literal or a sign in front of one, so that the magnitude has to fit 64 bits by itself. That of the
least integer does not, and comes back as a float.

* `Numeral.isLiteral_repr`, `Literal.int?_repr`: the digits of a natural number are a literal, and
  what it is read as.
* `Expr.ofInt`: the tree of a printed integer; `Expr.print_ofInt` gives its text.
* `Limits.calculate_toString_int`: what the text of an integer evaluates to.
-/

namespace Calculator

/-- The digits of a natural number are one numeral. -/
theorem Numeral.isLiteral_repr (n : Nat) : IsLiteral n.repr := by
  have hdigits : ∀ c ∈ n.repr.toList, c.isDigit = true := by
    rw [Nat.toList_repr]
    exact fun c => Nat.isDigit_of_mem_toDigits (by decide) (by decide)
  have hne : n.repr.toList ≠ [] := by
    rw [Nat.toList_repr]
    exact Nat.toDigits_ne_nil
  have hwell : WellFormed ⟨n.repr.toList, none, none⟩ := ⟨hdigits, nofun, .inl hne, nofun⟩
  have hread := read?_text_append hwell ends_nil
  simp only [text, fractionText, Option.map_none, Option.getD_none, List.append_nil] at hread
  exact ⟨_, hread⟩

/-- The digits of a natural number are read as this number, if it fits 64 bits. -/
theorem Literal.int?_repr (n : Nat) : int? n.repr.toList = exactInt? n := by
  have hsign := (Numeral.isLiteral_repr n).splitSign
  rw [Nat.toList_repr] at hsign ⊢
  have hdigits : (Nat.toDigits 10 n).all Char.isDigit = true :=
    List.all_eq_true.mpr fun c => Nat.isDigit_of_mem_toDigits (by decide) (by decide)
  have hne : (Nat.toDigits 10 n).isEmpty = false :=
    List.isEmpty_eq_false_iff.mpr Nat.toDigits_ne_nil
  unfold int?
  simp [hsign, hdigits, hne, Nat.ofDigitChars_ten_toDigits]

namespace Expr

/-- The tree of a printed integer. -/
def ofInt (z : Int) : Expr :=
  let magnitude : Expr := number z.natAbs.repr (.point 0)
  if 0 ≤ z then magnitude else signed .minus magnitude (.point 0)

theorem print_ofInt (z : Int) : (ofInt z).print = toString z := by
  rw [print_eq, Int.toString_eq_repr, Int.repr_eq_if]
  unfold ofInt
  dsimp only
  split
  · next h =>
    rw [printAt, String.ofList_toList, show z.natAbs = z.toNat by omega]
  · next h =>
    rw [show (-z).toNat = z.natAbs by omega]
    show String.ofList ("-".toList ++ z.natAbs.repr.toList) = _
    rw [String.ofList_append, String.ofList_toList, String.ofList_toList]

theorem wellFormed_ofInt (z : Int) : (ofInt z).WellFormed := by
  unfold ofInt
  dsimp only
  split <;> exact Numeral.isLiteral_repr _

/-- At most one sign stands above the literal. -/
theorem printNeed_ofInt_le (z : Int) : (ofInt z).printNeed 0 ≤ 2 ∧ (ofInt z).nesting ≤ 2 := by
  unfold ofInt
  dsimp only
  split
  · exact ⟨Nat.le_succ 1, Nat.le_succ 1⟩
  · exact ⟨Nat.le_refl 2, Nat.le_refl 2⟩

/-- An integer whose magnitude fits 64 bits is the exact value of its tree. -/
theorem exactValue?_ofInt {z : Int} (hlow : -2 ^ 63 < z) (hhigh : z < 2 ^ 63) :
    (ofInt z).exactValue? = some z := by
  have hmagnitude : exactInt? z.natAbs = some (.ofInt z.natAbs) :=
    exactInt?_eq_some_iff.mpr (Int64.toInt_ofInt_of_le (by omega) (by omega)).symm
  have htoInt : (Int64.ofInt z.natAbs).toInt = z.natAbs :=
    Int64.toInt_ofInt_of_le (by omega) (by omega)
  unfold ofInt
  dsimp only
  split
  · next h =>
    rw [exactValue?, Literal.int?_repr, hmagnitude, Option.map_some, htoInt]
    exact congrArg some (by omega)
  · next h =>
    rw [exactValue?, exactValue?, Literal.int?_repr, hmagnitude, Option.map_some, htoInt]
    show fit? (-(z.natAbs : Int)) = some z
    rw [show -(z.natAbs : Int) = z by omega, fit?, if_pos ⟨by omega, hhigh⟩]

end Expr

namespace Limits

/-- The magnitude of the least integer is a literal that does not fit 64 bits. -/
theorem calculate_least :
    ({} : Limits).calculate (toString (Number.int Int64.minValue)) =
      .ok (.float (-9223372036854775808.0)) := by
  decide +kernel

/-- The text of an integer evaluates to this integer. The one exception is the least integer of
64 bits, whose text evaluates to the float of the same value. -/
theorem calculate_toString_int (n : Int64) :
    ({} : Limits).calculate (toString (Number.int n)) =
      .ok (if n = Int64.minValue then .float (-9223372036854775808.0) else .int n) := by
  by_cases hleast : n = Int64.minValue
  · rw [if_pos hleast, hleast]
    exact calculate_least
  rw [if_neg hleast]
  have hlow : -2 ^ 63 < n.toInt := by
    have hne : n.toInt ≠ Int64.minValue.toInt := fun h => hleast (Int64.toInt_inj.mp h)
    exact Int.lt_iff_le_and_ne.mpr ⟨n.le_toInt, hne.symm⟩
  obtain ⟨hneed, hnesting⟩ := Expr.printNeed_ofInt_le n.toInt
  -- The text is that of the tree, so that it is parsed as the tree up to spans.
  have hlevels : (Expr.ofInt n.toInt).printNeed 0 ≤ ({} : Limits).nesting :=
    Nat.le_trans hneed (by decide)
  obtain ⟨tree, hparse, hbare⟩ :=
    (parse_print_iff (Expr.wellFormed_ofInt n.toInt)).mpr hlevels
  rw [Expr.print_ofInt] at hparse
  have hvalue : ({} : Limits).evaluate (.ofInt n.toInt) = .ok (.int n) :=
    evaluate_eq_ok_int_iff.mpr ⟨Expr.exactValue?_ofInt hlow n.toInt_lt,
      Nat.le_trans hnesting (by decide)⟩
  have htree : ({} : Limits).evaluate tree = .ok (.int n) :=
    Expr.eval_eq_ok_of_bare_eq hbare.symm hvalue
  unfold calculate
  rw [show toString (Number.int n) = toString n.toInt from rfl, hparse]
  show (({} : Limits).evaluate tree).mapError Failure.undefined = _
  rw [htree]
  rfl

/-- The least integer is a value, as that of `(-2)^63`, but its text does not evaluate to it. -/
theorem calculate_toString_least :
    ({} : Limits).calculate "(-2)^63" = .ok (.int Int64.minValue) ∧
      ({} : Limits).calculate (toString (Number.int Int64.minValue)) ≠
        .ok (.int Int64.minValue) := by
  refine ⟨by decide +kernel, fun h => ?_⟩
  nomatch calculate_least.symm.trans h

end Limits

end Calculator

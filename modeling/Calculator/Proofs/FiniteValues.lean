import Calculator.Expr.Value
import Calculator.Proofs.Floats.Operations
import Calculator.Proofs.Numeral

/-!
# Values are finite

The numbers that an evaluation gives and takes are integers and finite floats. On these, the float
that stands for a number has its sign and is zero only if the number is, so a test for zero says the
same of both; and only a division by zero or a power can give NaN.

* `Number.toFloat_beq_zero`, `Number.toFloat_lt_zero_iff`: the tests on the float of a number.
* `Expr.isFinite_of_value`: the values of trees are finite.
* `Operation.apply_eq_divisionByZero_iff`: when an operation divides by zero.
* `Operation.error_of_apply`: which errors an operation has.
-/

namespace Calculator

open Floats

/-! ## Numbers as floats -/

namespace Number

/-- The number is zero. There is one zero among the integers, and there are two among the floats. -/
def IsZero (x : Number) : Prop := x = .int 0 ∨ x = .float 0.0 ∨ x = .float (-0.0)

/-- Is the number below zero? -/
def isNegative : Number → Bool
  | int value => value < 0
  | float value => value < 0.0

theorem normal_toFloat_int {n : Int64} (h : n ≠ 0) :
    Normal (if n.toInt < 0 then .negative else .positive) (-104) 13
      (int n).toFloat.toModel.unpack :=
  normal_ofInt (fun hzero => h (Int64.toInt_inj.mp hzero)) n.le_toInt n.toInt_lt

theorem isFinite_toFloat {x : Number} (h : x.IsFinite) : x.toFloat.isFinite = true := by
  cases x with
  | float value => exact h
  | int n =>
    by_cases hzero : n = 0
    · rw [hzero]
      rfl
    · exact (normal_toFloat_int hzero).isFinite

/-- The float of a number is zero exactly if the number is. -/
theorem toFloat_beq_zero (x : Number) : (x.toFloat == 0.0) = x.isZero := by
  cases x with
  | float value => rfl
  | int n =>
    by_cases hzero : n = 0
    · rw [hzero]
      rfl
    · rw [(normal_toFloat_int hzero).beq_zero, isZero, beq_eq_false_iff_ne.mpr hzero]

/-- The float of a number is below zero exactly if the number is. -/
theorem toFloat_lt_zero_iff (x : Number) : x.toFloat < 0.0 ↔ x.isNegative = true := by
  cases x with
  | float value => exact decide_eq_true_iff.symm
  | int n =>
    by_cases hzero : n = 0
    · rw [hzero]
      exact ⟨nofun, nofun⟩
    · rw [(normal_toFloat_int hzero).lt_zero_iff, isNegative, decide_eq_true_iff,
        Int64.lt_iff_toInt_lt, Int64.toInt_zero]
      split <;> simp_all

theorem isZero_iff (x : Number) : x.isZero = true ↔ x.IsZero := by
  unfold IsZero
  cases x with
  | int n => simp [isZero]
  | float value => simp [isZero, eq_zero_or_iff]

end Number

/-! ## Signs -/

theorem Sign.isFinite_apply (sign : Sign) {x : Number} (h : x.IsFinite) :
    (sign.apply x).IsFinite := by
  cases sign with
  | plus => exact h
  | minus =>
    cases x with
    | float value => exact isFinite_neg h
    | int n =>
      unfold Sign.apply
      dsimp only
      split
      · exact trivial
      · exact isFinite_neg (Number.isFinite_toFloat h)

/-! ## Literals -/

section FiniteAt

variable {x : Float} {span : Span}

theorem isFinite_of_finiteAt {n : Number} (h : finiteAt span x = .ok n) : n.IsFinite := by
  rcases finiteAt_cases span x with ⟨-, hx⟩ | ⟨hnan, ⟨-, hx⟩ | ⟨hinf, hx⟩⟩
  · cases h.symm.trans hx
  · cases h.symm.trans hx
  · obtain rfl := Except.ok.inj (h.symm.trans hx)
    exact isFinite_of_not hnan hinf

theorem finiteAt_of_isFinite (h : x.isFinite = true) : finiteAt span x = .ok (.float x) := by
  rcases finiteAt_cases span x with ⟨hnan, -⟩ | ⟨-, ⟨hinf, -⟩ | ⟨-, hx⟩⟩
  · nomatch (isNaN_eq_false h).symm.trans hnan
  · rcases zero_or_finite h with ⟨s, hx⟩ | ⟨s, m, e, hm, hx⟩ <;>
      nomatch (congrArg Float.Model.UnpackedFloat.isInf hx).symm.trans hinf
  · exact hx

/-- A float that is no number is infinite or NaN. -/
theorem error_of_finiteAt {error : EvalError} (h : finiteAt span x = .error error) :
    error = .overflow span ∨ error = .notReal span ∧ x.isNaN = true := by
  rcases finiteAt_cases span x with ⟨hnan, hx⟩ | ⟨-, ⟨-, hx⟩ | ⟨-, hx⟩⟩
  · exact .inr ⟨Except.error.inj (h.symm.trans hx), hnan⟩
  · exact .inl (Except.error.inj (h.symm.trans hx))
  · cases h.symm.trans hx

/-- Without NaN, only the size of a result can be at fault. -/
theorem overflow_of_finiteAt {error : EvalError} (hnan : x.isNaN = false)
    (h : finiteAt span x = .error error) : error = .overflow span :=
  (error_of_finiteAt h).resolve_right fun ⟨_, h⟩ => nomatch hnan.symm.trans h

end FiniteAt

namespace Literal

variable {text : String} {span : Span}

theorem isFinite_of_value {n : Number} (h : value text span = .ok n) : n.IsFinite := by
  unfold value at h
  split at h
  · obtain rfl := Except.ok.inj h
    exact trivial
  · split at h
    · exact isFinite_of_finiteAt h
    · nomatch h

/-- A numeral has a float, and it is not NaN. -/
theorem float?_of_isLiteral (h : Numeral.IsLiteral text) :
    ∃ x, float? text.toList = some x ∧ x.isNaN = false := by
  have hsign := h.splitSign
  obtain ⟨n, hn⟩ := h
  refine ⟨n.toDecimal.canonical.toFloat, ?_, isNaN_ofScientific _ _⟩
  simp [float?, hsign, magnitude?, hn]

/-- A numeral has a value unless it is beyond the greatest float. -/
theorem overflow_of_value (hliteral : Numeral.IsLiteral text) {error : EvalError}
    (h : value text span = .error error) : error = .overflow span := by
  obtain ⟨x, hx, hnan⟩ := float?_of_isLiteral hliteral
  unfold value at h
  split at h
  · nomatch h
  · rw [hx] at h
    exact overflow_of_finiteAt hnan h

end Literal

/-! ## Operations -/

theorem Binary.exists_of_isFinite {x : Float} (h : x.isFinite = true) :
    ∃ b, Binary.ofFloat? x = some b := by
  unfold ofFloat?
  rcases zero_or_finite h with ⟨s, hx⟩ | ⟨s, m, e, hm, hx⟩
  · exact ⟨_, by rw [hx]⟩
  · exact ⟨_, by rw [hx]⟩

theorem isNaN_truncatedMod {x y : Float} (hx : x.isFinite = true) (hy : y.isFinite = true) :
    (truncatedMod x y).isNaN = false := by
  have hround (b : Binary) : b.toFloat.isNaN = false := isNaN_round ..
  obtain ⟨a, ha⟩ := Binary.exists_of_isFinite hx
  obtain ⟨b, hb⟩ := Binary.exists_of_isFinite hy
  unfold truncatedMod
  rw [ha, hb]
  dsimp only
  split
  · rw [isNaN_neg, hround]
  · exact hround _

namespace Operation

variable {operation : Operation} {span : Span}

/-- The modulus of two finite floats is never NaN. -/
theorem isNaN_floorMod {x y : Float} (hx : x.isFinite = true) (hy : y.isFinite = true) :
    (floorMod x y).isNaN = false := by
  have hrest := isNaN_truncatedMod hx hy
  unfold floorMod
  dsimp only
  split
  · exact isNaN_add hrest hy
  · exact hrest

/-- The operation divides by zero: a division by zero, or a power of zero with a negative
exponent. -/
def DividesByZero (operation : Operation) (left right : Number) : Prop :=
  operation.divides = true ∧ right.IsZero ∨
    operation = .pow ∧ left.IsZero ∧ right.isNegative = true

theorem isFinite_of_onFloats {x y : Float} {n : Number}
    (h : operation.onFloats x y span = .ok n) : n.IsFinite := by
  rcases operation.onFloats_cases x y span with ⟨-, hx⟩ | ⟨z, hz⟩
  · cases h.symm.trans hx
  · exact isFinite_of_finiteAt (hz.symm.trans h)

/-- On finite floats, and unless a divisor is zero, only a power has another fault than its
size. -/
theorem error_of_onFloats {x y : Float} {error : EvalError} (hx : x.isFinite = true)
    (hy : y.isFinite = true) (hzero : operation.divides = true → (y == 0.0) = false)
    (h : operation.onFloats x y span = .error error) :
    error = .overflow span ∨ operation = .pow ∧
      (error = .divisionByZero span ∧ (x == 0.0) = true ∧ y < 0.0 ∨ error = .notReal span) := by
  cases operation with
  | add => exact .inl (overflow_of_finiteAt (isNaN_add (isNaN_eq_false hx) hy) h)
  | sub => exact .inl (overflow_of_finiteAt (isNaN_sub hx hy) h)
  | mul => exact .inl (overflow_of_finiteAt (isNaN_mul hx hy) h)
  | div => exact .inl (overflow_of_finiteAt (isNaN_div hx hy (hzero rfl)) h)
  | mod => exact .inl (overflow_of_finiteAt (isNaN_floorMod hx hy) h)
  | pow =>
    unfold onFloats at h
    dsimp only at h
    split at h
    · next hdivides =>
      rw [Bool.and_eq_true, decide_eq_true_iff] at hdivides
      exact .inr ⟨rfl, .inl ⟨(Except.error.inj h).symm, hdivides⟩⟩
    · exact (error_of_finiteAt h).imp_right fun h => ⟨rfl, .inr h.1⟩

theorem isFinite_of_apply {left right n : Number} (h : operation.apply left right span = .ok n) :
    n.IsFinite := by
  rcases apply_cases operation left right span with
    ⟨-, happly⟩ | ⟨-, ⟨a, b, v, -, -, -, happly⟩ | happly⟩
  · nomatch h.symm.trans happly
  · obtain rfl := Except.ok.inj (h.symm.trans happly)
    exact trivial
  · exact isFinite_of_onFloats (happly.symm.trans h)

/-- The errors of an operation on finite numbers. Only a power has results that are not real. -/
theorem error_of_apply {left right : Number} {error : EvalError} (hleft : left.IsFinite)
    (hright : right.IsFinite) (h : operation.apply left right span = .error error) :
    error = .divisionByZero span ∨ error = .overflow span ∨
      error = .notReal span ∧ operation = .pow := by
  rcases apply_cases operation left right span with
    ⟨-, happly⟩ | ⟨hzero, ⟨a, b, v, -, -, -, happly⟩ | happly⟩
  · exact .inl (Except.error.inj (h.symm.trans happly))
  · nomatch h.symm.trans happly
  · rw [← right.toFloat_beq_zero] at hzero
    rcases error_of_onFloats (Number.isFinite_toFloat hleft) (Number.isFinite_toFloat hright) hzero
      (happly.symm.trans h) with h | ⟨hpow, ⟨h, -⟩ | h⟩
    · exact .inr (.inl h)
    · exact .inl h
    · exact .inr (.inr ⟨h, hpow⟩)

/-- An integer has no power with a negative exponent that is an integer. -/
theorem onInts?_pow_of_neg {a b : Int64} (h : b < 0) : onInts? .pow a b = none := by
  have hneg : b.toInt < 0 := Int64.lt_iff_toInt_lt.mp h
  have hpos : ¬0 < b := fun hpos => Int64.lt_asymm h hpos
  rw [onInts?, powInt?, if_neg (by omega), if_neg hpos]

/-- On finite numbers, the error is a division by zero exactly if the operation divides by zero. -/
theorem apply_eq_divisionByZero_iff {left right : Number} (hleft : left.IsFinite)
    (hright : right.IsFinite) :
    operation.apply left right span = .error (.divisionByZero span) ↔
      operation.DividesByZero left right := by
  unfold DividesByZero
  rw [← left.isZero_iff, ← right.isZero_iff, ← left.toFloat_beq_zero, ← right.toFloat_lt_zero_iff]
  rcases apply_cases operation left right span with
    ⟨hdivides, happly⟩ | ⟨hzero, ⟨a, b, n, rfl, rfl, hn, happly⟩ | happly⟩
  · exact ⟨fun _ => .inl hdivides, fun _ => happly⟩
  · refine ⟨fun h => (nomatch h.symm.trans happly), ?_⟩
    rintro (⟨hdivides, hright⟩ | ⟨rfl, -, hnegative⟩)
    · nomatch hright.symm.trans (hzero hdivides)
    · rw [Number.toFloat_lt_zero_iff, Number.isNegative, decide_eq_true_iff] at hnegative
      nomatch hn.symm.trans (onInts?_pow_of_neg hnegative)
  · rw [happly]
    constructor
    · intro h
      rw [← right.toFloat_beq_zero] at hzero
      rcases error_of_onFloats (Number.isFinite_toFloat hleft) (Number.isFinite_toFloat hright)
        hzero h with h | ⟨hpow, ⟨-, h⟩ | h⟩
      · nomatch h
      · exact .inr ⟨hpow, h⟩
      · nomatch h
    · rintro (⟨hdivides, hright⟩ | ⟨rfl, hleft, hright⟩)
      · nomatch hright.symm.trans (hzero hdivides)
      · exact if_pos (by rw [hleft, decide_eq_true hright]; rfl)

end Operation

/-! ## Trees -/

/-- A tree has finite values only. -/
theorem Expr.isFinite_of_value {e : Expr} {n : Number} (h : e.value = .ok n) : n.IsFinite := by
  induction e generalizing n with
  | number text span => exact Literal.isFinite_of_value h
  | invalid span => nomatch h
  | signed sign operand span ih =>
    obtain ⟨a, ha, rfl⟩ := map_eq_ok.mp h
    exact sign.isFinite_apply (ih ha)
  | binary op opSpan left right span ihl ihr =>
    obtain ⟨a, ha, h⟩ := bind_eq_ok.mp h
    obtain ⟨b, hb, h⟩ := bind_eq_ok.mp h
    exact Operation.isFinite_of_apply h

end Calculator

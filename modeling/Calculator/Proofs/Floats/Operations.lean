import Calculator.Proofs.Floats.Rounding

/-!
# Operations on floats

Which operations may give NaN, which floats are zero or below it, and what becomes of an integer.

* `isNaN_add`, `isNaN_sub`, `isNaN_mul`, `isNaN_div`: on numbers, only a division by zero gives NaN.
* `beq_zero_iff`, `Normal.lt_zero_iff`: the comparisons with zero.
* `normal_ofInt`: an integer of 64 bits other than zero becomes a normal number with its sign.
-/

namespace Calculator.Floats

open Float.Model (UnpackedFloat Format)
open Float.Model.UnpackedFloat

/-! ## Floats taken apart -/

section Unpacked

variable {a b : UnpackedFloat}

/-- A number is zero or has a mantissa. -/
theorem zero_or_finite (h : a.isFinite = true) :
    (∃ s, a = .zero s) ∨ ∃ s m e hm, a = .finite s m e hm := by
  cases a with
  | notANumber | infinity => nomatch h
  | zero s => exact .inl ⟨s, rfl⟩
  | finite s m e hm => exact .inr ⟨s, m, e, hm, rfl⟩

theorem isNaN_of_isFinite (h : a.isFinite = true) : a.isNaN = false := by
  rcases zero_or_finite h with ⟨s, rfl⟩ | ⟨s, m, e, hm, rfl⟩ <;> rfl

theorem isNaN_unpackedAdd (ha : a.isNaN = false) (hb : b.isFinite = true) :
    (add Format.binary64 a b).isNaN = false := by
  rcases zero_or_finite hb with ⟨s', rfl⟩ | ⟨s', m', e', hm', rfl⟩
  · cases a with
    | notANumber => nomatch ha
    | zero s => unfold add; dsimp only; split <;> rfl
    | infinity | finite => rfl
  · cases a with
    | notANumber => nomatch ha
    | infinity | zero => rfl
    | finite => exact isNaN_normalize ..

theorem isNaN_unpackedSub (ha : a.isFinite = true) (hb : b.isFinite = true) :
    (sub Format.binary64 a b).isNaN = false := by
  rcases zero_or_finite ha with ⟨s, rfl⟩ | ⟨s, m, e, hm, rfl⟩ <;>
    rcases zero_or_finite hb with ⟨s', rfl⟩ | ⟨s', m', e', hm', rfl⟩
  · unfold sub
    dsimp only
    split <;> rfl
  · rfl
  · rfl
  · exact isNaN_normalize ..

theorem isNaN_unpackedMul (ha : a.isFinite = true) (hb : b.isFinite = true) :
    (mul Format.binary64 a b).isNaN = false := by
  rcases zero_or_finite ha with ⟨s, rfl⟩ | ⟨s, m, e, hm, rfl⟩ <;>
    rcases zero_or_finite hb with ⟨s', rfl⟩ | ⟨s', m', e', hm', rfl⟩
  · rfl
  · rfl
  · rfl
  · exact isNaN_roundWithAccuracy ..

theorem isNaN_unpackedDiv (ha : a.isFinite = true) (hb : b.isFinite = true)
    (hzero : ¬ ∃ s, b = .zero s) : (div Format.binary64 a b).isNaN = false := by
  obtain ⟨s', m', e', hm', rfl⟩ := (zero_or_finite hb).resolve_left hzero
  rcases zero_or_finite ha with ⟨s, rfl⟩ | ⟨s, m, e, hm, rfl⟩
  · rfl
  · exact isNaN_roundWithAccuracy ..

/-- A product with digits enough is normal. -/
theorem normal_mul {s s' : UnpackedFloat.Sign} {m m' : Nat} {e e' : Int} {hm : 0 < m} {hm' : 0 < m'}
    (h : 2 ^ 52 ≤ m * m') (he : -1074 ≤ e + e') :
    Normal (s * s') (e + e') ((m * m').log2 + (e + e') - 51)
      (mul Format.binary64 (.finite s m e hm) (.finite s' m' e' hm')) :=
  normal_roundWithAccuracy (s * s') .exact h he

/-- A decimal that is read as a float is a number, perhaps too great a one. -/
theorem isNaN_unpackedOfScientific (m : Nat) (e : Int) :
    (ofScientific Format.binary64 m e).isNaN = false := by
  unfold ofScientific
  split
  · rfl
  · split
    · rfl
    · split
      · rfl
      · split
        · exact isNaN_unpackedMul rfl rfl
        · exact isNaN_unpackedDiv rfl rfl nofun

/-- The product of two normal numbers is normal. -/
theorem Normal.mul {s s' : UnpackedFloat.Sign} {low low' high high' : Int}
    (ha : Normal s low high a) (hb : Normal s' low' high' b) (hlow : -1074 ≤ low + low') :
    Normal (s * s') (low + low') (high + high' + 54)
      (UnpackedFloat.mul Format.binary64 a b) := by
  obtain ⟨m, e, hm, rfl, hleast, hgreatest, hle, hge⟩ := ha
  obtain ⟨m', e', hm', rfl, hleast', hgreatest', hle', hge'⟩ := hb
  have hprod : 2 ^ 52 * 2 ^ 52 ≤ m * m' := Nat.mul_le_mul hleast hleast'
  have hlog : (m * m').log2 < 106 :=
    (Nat.log2_lt (by omega)).mpr (Nat.mul_lt_mul'' (c := 2 ^ 53) (d := 2 ^ 53) hgreatest hgreatest')
  exact (normal_mul (by omega) (by omega)).mono (by omega) (by omega)

end Unpacked

/-! ## Numbers and NaN -/

variable {x y : Float}

theorem isNaN_eq_false (h : x.isFinite = true) : x.isNaN = false := isNaN_of_isFinite h

/-- What is neither NaN nor infinite is a number. -/
theorem isFinite_of_not (hnan : x.isNaN ≠ true) (hinf : x.isInf ≠ true) : x.isFinite = true := by
  show x.toModel.unpack.isFinite = true
  cases hu : x.toModel.unpack with
  | notANumber => exact absurd (congrArg isNaN hu) hnan
  | infinity => exact absurd (congrArg isInf hu) hinf
  | zero | finite => rfl

theorem isNaN_add (hx : x.isNaN = false) (hy : y.isFinite = true) : (x + y).isNaN = false :=
  (isNaN_unpack_pack _).trans (isNaN_unpackedAdd hx hy)

theorem isNaN_sub (hx : x.isFinite = true) (hy : y.isFinite = true) : (x - y).isNaN = false :=
  (isNaN_unpack_pack _).trans (isNaN_unpackedSub hx hy)

theorem isNaN_mul (hx : x.isFinite = true) (hy : y.isFinite = true) : (x * y).isNaN = false :=
  (isNaN_unpack_pack _).trans (isNaN_unpackedMul hx hy)

theorem isNaN_neg (x : Float) : (-x).isNaN = x.isNaN := by
  refine (isNaN_unpack_pack _).trans ?_
  show (neg x.toModel.unpack).isNaN = x.toModel.unpack.isNaN
  cases x.toModel.unpack <;> rfl

theorem isNaN_ofScientific (m : Nat) (e : Int) :
    (Float.ofModel (.ofScientific m e)).isNaN = false :=
  (isNaN_unpack_pack _).trans (isNaN_unpackedOfScientific m e)

/-- A magnitude that is rounded is a number, perhaps too great a one. -/
theorem isNaN_round (s : UnpackedFloat.Sign) (m : Nat) (e : Int) :
    (Float.ofModel (.pack (UnpackedFloat.round Format.binary64 s m e))).isNaN = false :=
  (isNaN_unpack_pack _).trans (isNaN_roundWithAccuracy ..)

/-! ## Zero -/

theorem unpack_zero : (0.0 : Float).toModel.unpack = .zero .positive := rfl

/-- Both zeros are equal to zero, and nothing else is. -/
theorem beq_zero_iff : (x == 0.0) = true ↔ ∃ s, x.toModel.unpack = .zero s := by
  show UnpackedFloat.beq x.toModel.unpack (0.0 : Float).toModel.unpack = true ↔ _
  rw [unpack_zero]
  cases x.toModel.unpack with
  | notANumber => exact ⟨nofun, fun ⟨_, h⟩ => nomatch h⟩
  | zero s => exact ⟨fun _ => ⟨s, rfl⟩, fun _ => rfl⟩
  | infinity s => cases s <;> exact ⟨nofun, fun ⟨_, h⟩ => nomatch h⟩
  | finite s m e hm => cases s <;> exact ⟨nofun, fun ⟨_, h⟩ => nomatch h⟩

/-- There are two zeros. -/
theorem eq_zero_or_iff : (x == 0.0) = true ↔ x = 0.0 ∨ x = -0.0 := by
  have hzero : (0.0 : Float) ≠ Float.nan := by decide
  have hzero' : (-0.0 : Float) ≠ Float.nan := by decide
  rw [Float.beq_iff_ne_nan_and_eq]
  constructor
  · rintro ⟨-, -, h | ⟨h, -⟩ | ⟨h, -⟩⟩
    · exact .inl h
    · exact .inl h
    · exact .inr h
  · rintro (rfl | rfl)
    · exact ⟨hzero, hzero, .inl rfl⟩
    · exact ⟨hzero', hzero, .inr (.inr ⟨rfl, rfl⟩)⟩

theorem isNaN_div (hx : x.isFinite = true) (hy : y.isFinite = true) (hzero : (y == 0.0) = false) :
    (x / y).isNaN = false :=
  (isNaN_unpack_pack _).trans (isNaN_unpackedDiv hx hy fun h => by
    rw [beq_zero_iff.mpr h] at hzero
    nomatch hzero)

namespace Normal

variable {s : UnpackedFloat.Sign} {low high : Int} (h : Normal s low high x.toModel.unpack)
include h

theorem isFinite : x.isFinite = true := by
  obtain ⟨m, e, hm, heq, -⟩ := h
  exact congrArg UnpackedFloat.isFinite heq

/-- A normal number is not zero. -/
theorem beq_zero : (x == 0.0) = false := by
  obtain ⟨m, e, hm, heq, -⟩ := h
  refine Bool.eq_false_iff.mpr fun hzero => ?_
  obtain ⟨s', hs'⟩ := beq_zero_iff.mp hzero
  nomatch heq.symm.trans hs'

/-- A normal number is below zero exactly if it has the sign for it. -/
theorem lt_zero_iff : x < 0.0 ↔ s = .negative := by
  obtain ⟨m, e, hm, heq, -⟩ := h
  show decide (UnpackedFloat.lt x.toModel.unpack (0.0 : Float).toModel.unpack = true) = true ↔ _
  rw [decide_eq_true_iff, unpack_zero, heq]
  cases s with
  | negative => exact ⟨fun _ => rfl, fun _ => rfl⟩
  | positive => exact ⟨nofun, nofun⟩

theorem neg (hlow : -1074 ≤ low) (hhigh : high ≤ 971) :
    Normal (-s) low high (-x).toModel.unpack := by
  obtain ⟨m, e, hm, heq, hbounds⟩ := h
  have hneg : Normal (-s) low high (UnpackedFloat.neg x.toModel.unpack) :=
    ⟨m, e, hm, by rw [heq]; rfl, hbounds⟩
  exact hneg.unpack_pack hlow hhigh

end Normal

/-- The opposite of a number is a number. -/
theorem isFinite_neg (h : x.isFinite = true) : (-x).isFinite = true := by
  show (unpack Format.binary64 (pack Format.binary64 x.toModel.unpack.neg)).isFinite = true
  rcases zero_or_finite h with ⟨s, hx⟩ | ⟨s, m, e, hm, hx⟩
  · rw [hx, UnpackedFloat.neg, pack, unpack_packedZero]
    rfl
  · rw [hx]
    exact isFinite_unpack_pack (canonical_unpack hx).exponent_le

/-! ## Integers -/

theorem normal_one : Normal .positive (-52) (-52)
    (Float.ofBits 0x3FF0000000000000).toModel.unpack :=
  ⟨2 ^ 52, -52, by decide, rfl, by decide, by decide, by decide, by decide⟩

/-- The small integers are converted exactly. -/
theorem normal_toFloat {n : Nat} (hpos : 0 < n) (hlt : n < 2 ^ 53) :
    Normal .positive (-52) 1 n.toUInt64.toFloat.toModel.unpack := by
  have hnat : n.toUInt64.toNat = n := Nat.mod_eq_of_lt (by omega)
  have hnormal := normal_normalize hpos hlt .positive
  rw [← hnat] at hnormal
  exact hnormal.unpack_pack (by decide) (by decide)

/-- The great integers are rounded. -/
theorem normal_ofScientific {n : Nat} (hpos : 0 < n) (hlt : n < 2 ^ 64) :
    Normal .positive (-53) 13 (ofScientific Format.binary64 n 0) := by
  have hmantissa : n <<< Format.binary64.mantissaBits * 10 ^ (0 : Int).toNat = n * 2 ^ 53 := by
    rw [Nat.shiftLeft_eq, Int.toNat_zero, Nat.pow_zero, Nat.mul_one]
    rfl
  have hlong : 2 ^ 52 ≤ n * 2 ^ 53 := by omega
  have hlog : (n * 2 ^ 53).log2 < 117 :=
    (Nat.log2_lt (by omega)).mpr (Nat.mul_lt_mul_of_pos_right hlt (by decide))
  have hleast : ¬ (0 : Int) < -((2 ^ Format.binary64.exponentBits : Int) + n.log2) := by
    have : (0 : Int) ≤ 2 ^ Format.binary64.exponentBits := by decide
    omega
  have hbits : (Format.binary64.mantissaBits : Int) = 53 := rfl
  rw [← hmantissa] at hlong hlog
  unfold ofScientific
  rw [dif_neg (by omega), if_neg (by decide), if_neg hleast, if_pos (by decide)]
  exact (normal_mul hlong (by decide)).mono (by omega) (by omega)

/-- A natural number of at most 64 bits other than zero becomes a normal number. -/
theorem normal_ofNat {n : Nat} (hpos : 0 < n) (hlt : n < 2 ^ 64) :
    Normal .positive (-104) 13 (Float.ofNat n).toModel.unpack := by
  show Normal _ _ _ (Float.ofScientific n false 0).toModel.unpack
  unfold Float.ofScientific
  by_cases hsmall : n < 2 ^ 53
  · rw [dif_pos ⟨hsmall, by decide⟩]
    have hprod := (normal_toFloat hpos hsmall).mul normal_one (by decide)
    exact (hprod.unpack_pack (by decide) (by decide)).mono (by decide) (by decide)
  · rw [dif_neg fun h => hsmall h.1]
    exact ((normal_ofScientific hpos hlt).unpack_pack (by decide) (by decide)).mono (by decide)
      (by decide)

/-- An integer of 64 bits other than zero becomes a normal number with its sign. -/
theorem normal_ofInt {z : Int} (hz : z ≠ 0) (hlow : -2 ^ 63 ≤ z) (hhigh : z < 2 ^ 63) :
    Normal (if z < 0 then .negative else .positive) (-104) 13 (Float.ofInt z).toModel.unpack := by
  cases z with
  | ofNat n =>
    rw [Int.ofNat_eq_natCast] at hz hhigh ⊢
    rw [if_neg (by omega)]
    exact normal_ofNat (by omega) (by omega)
  | negSucc n =>
    rw [if_pos (by omega)]
    exact (normal_ofNat (Nat.succ_pos n) (by omega)).neg (by decide) (by decide)

end Calculator.Floats

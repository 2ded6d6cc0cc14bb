import Calculator.Proofs.Floats.Packing

/-!
# Rounding to floats

Rounding shifts a mantissa to the exponent at which it has 53 digits, rounds the digits that are
lost, and shifts once more if that made it longer. It gives a number or zero, and a number in normal
form if it starts with digits enough.

* `normal_roundWithAccuracy`: a mantissa of 53 digits or more is rounded to a normal number.
* `normal_normalize`: an integer of at most 53 digits becomes a normal number.
* `isNaN_roundWithAccuracy`, `isNaN_normalize`: rounding does not give NaN.
-/

namespace Calculator.Floats

open Float.Model (UnpackedFloat Format totalExponent)
open Float.Model.UnpackedFloat

/-! ## Mantissas -/

theorem mantissa_shiftRight (em : ExtendedMantissa) (k : Nat) :
    (em >>> k).mantissa = em.mantissa / 2 ^ k := by
  show (k.repeat ExtendedMantissa.shiftRightOne em).mantissa = _
  induction k with
  | zero => exact (Nat.div_one _).symm
  | succ k ih =>
    show (k.repeat ExtendedMantissa.shiftRightOne em).mantissa / 2 = _
    rw [ih, Nat.div_div_eq_div_mul, Nat.pow_succ]

theorem mantissa_ofMantissaAndAccuracy (m : Nat) (accuracy : Accuracy) :
    (ExtendedMantissa.ofMantissaAndAccuracy m accuracy).mantissa = m := by
  cases accuracy with
  | exact => rfl
  | inexact order => cases order <;> rfl

/-- Rounding adds one at most to the last digit. -/
theorem roundedMantissa_bounds (em : ExtendedMantissa) :
    em.mantissa ≤ em.roundedMantissa ∧ em.roundedMantissa ≤ em.mantissa + 1 := by
  obtain ⟨m, round, sticky⟩ := em
  have hodd := Nat.mod_lt m Nat.two_pos
  cases round <;> cases sticky <;>
    simp only [ExtendedMantissa.roundedMantissa, ExtendedMantissa.accuracy,
      Accuracy.roundToNearestEven] <;> omega

/-! ## Normal results -/

/-- A mantissa of 53 digits or more is shifted to one of 53 digits. -/
theorem shiftToTargetExponent_eq {m : Nat} {e : Int} (accuracy : Accuracy) (hm : 2 ^ 52 ≤ m)
    (he : -1074 ≤ e) : shiftToTargetExponent Format.binary64 m e accuracy =
      (ExtendedMantissa.ofMantissaAndAccuracy m accuracy >>> (m.log2 - 52),
        e + (m.log2 - 52 : Nat)) := by
  have hlog : 52 ≤ m.log2 := (Nat.le_log2 (by omega)).mpr hm
  have htarget : (Format.binary64.targetExponent (totalExponent m e) - e).toNat = m.log2 - 52 := by
    show (max ((m.log2 : Int) + 1 + e - 53) (-1074) - e).toNat = m.log2 - 52
    omega
  unfold shiftToTargetExponent shiftToExponent
  dsimp only
  rw [htarget]

theorem div_two_pow_log2_bounds {m : Nat} (hm : 2 ^ 52 ≤ m) :
    2 ^ 52 ≤ m / 2 ^ (m.log2 - 52) ∧ m / 2 ^ (m.log2 - 52) < 2 ^ 53 := by
  have hlog : 52 ≤ m.log2 := (Nat.le_log2 (by omega)).mpr hm
  have hpow (k : Nat) : 2 ^ (m.log2 + k) = 2 ^ (52 + k) * 2 ^ (m.log2 - 52) := by
    rw [← Nat.pow_add]
    congr 1
    omega
  have hlow : 2 ^ (m.log2 + 0) ≤ m := Nat.log2_self_le (by omega)
  have hhigh : m < 2 ^ (m.log2 + 1) := Nat.lt_log2_self
  rw [hpow] at hlow hhigh
  exact ⟨(Nat.le_div_iff_mul_le (Nat.two_pow_pos _)).mpr hlow,
    (Nat.div_lt_iff_lt_mul (Nat.two_pow_pos _)).mpr hhigh⟩

/-- A mantissa of 53 digits or more is rounded to a number in normal form. -/
theorem normal_roundWithAccuracy (s : UnpackedFloat.Sign) {m : Nat} {e : Int} (accuracy : Accuracy)
    (hm : 2 ^ 52 ≤ m) (he : -1074 ≤ e) :
    Normal s e (m.log2 + e - 51) (roundWithAccuracy Format.binary64 s m e accuracy) := by
  have hlog : 52 ≤ m.log2 := (Nat.le_log2 (by omega)).mpr hm
  unfold roundWithAccuracy
  rw [shiftToTargetExponent_eq accuracy hm he]
  dsimp only
  obtain ⟨hlow, hhigh⟩ := div_two_pow_log2_bounds hm
  have hmantissa : (ExtendedMantissa.ofMantissaAndAccuracy m accuracy >>> (m.log2 - 52)).mantissa =
      m / 2 ^ (m.log2 - 52) := by
    rw [mantissa_shiftRight, mantissa_ofMantissaAndAccuracy]
  obtain ⟨hup, hone⟩ := roundedMantissa_bounds
    (ExtendedMantissa.ofMantissaAndAccuracy m accuracy >>> (m.log2 - 52))
  rw [hmantissa] at hup hone
  generalize ExtendedMantissa.roundedMantissa _ = r at hup hone ⊢
  -- Rounding up may give the 54th digit of a power of two, which the second shift drops.
  have hr : 2 ^ 52 ≤ r := Nat.le_trans hlow hup
  have hrlog : r.log2 < 54 := (Nat.log2_lt (by omega)).mpr (by omega)
  obtain ⟨hrlow, hrhigh⟩ := div_two_pow_log2_bounds hr
  have hfinal : (ExtendedMantissa.ofMantissaAndAccuracy r .exact >>> (r.log2 - 52)).mantissa =
      r / 2 ^ (r.log2 - 52) := by
    rw [mantissa_shiftRight, mantissa_ofMantissaAndAccuracy]
  simp only [shiftToTargetExponent_eq .exact hr (show -1074 ≤ e + (m.log2 - 52 : Nat) by omega),
    hfinal]
  rw [dif_neg (by omega)]
  exact ⟨_, _, _, rfl, hrlow, hrhigh, by omega, by omega⟩

/-- A number is normal also within wider bounds. -/
theorem Normal.mono {s : UnpackedFloat.Sign} {low high low' high' : Int} {u : UnpackedFloat}
    (h : Normal s low high u) (hlow : low' ≤ low) (hhigh : high ≤ high') :
    Normal s low' high' u := by
  obtain ⟨m, e, hm, rfl, hleast, hgreatest, hle, hge⟩ := h
  exact ⟨m, e, hm, rfl, hleast, hgreatest, by omega, by omega⟩

/-- An integer of at most 53 digits becomes a normal number. -/
theorem normal_normalize {n : Nat} (hpos : 0 < n) (hlt : n < 2 ^ 53)
    (zeroSign : UnpackedFloat.Sign) :
    Normal .positive (-52) 1 (UnpackedFloat.normalize Format.binary64 n 0 zeroSign) := by
  have hlog : n.log2 < 53 := (Nat.log2_lt (by omega)).mpr hlt
  have hcompare : compare (n : Int) 0 = .gt := Int.compare_eq_gt.mpr (by omega)
  unfold UnpackedFloat.normalize
  rw [hcompare]
  dsimp only
  unfold UnpackedFloat.round decreaseExponent
  have htarget : (0 - Format.binary64.targetExponent (totalExponent (n : Int).toNat 0)).toNat =
      52 - n.log2 := by
    show (0 - max (((n : Int).toNat.log2 : Int) + 1 + 0 - 53) (-1074)).toNat = 52 - n.log2
    rw [Int.toNat_natCast]
    omega
  dsimp only
  rw [htarget, Int.toNat_natCast, Nat.shiftLeft_eq]
  have hshift : 2 ^ 52 ≤ n * 2 ^ (52 - n.log2) := by
    calc 2 ^ 52 = 2 ^ n.log2 * 2 ^ (52 - n.log2) := by rw [← Nat.pow_add]; congr 1; omega
      _ ≤ n * 2 ^ (52 - n.log2) := Nat.mul_le_mul_right _ (Nat.log2_self_le (by omega))
  have hdigits : n * 2 ^ (52 - n.log2) < 2 ^ 53 := by
    calc n * 2 ^ (52 - n.log2) < 2 ^ (n.log2 + 1) * 2 ^ (52 - n.log2) :=
          Nat.mul_lt_mul_of_pos_right Nat.lt_log2_self (Nat.two_pow_pos _)
      _ = 2 ^ 53 := by rw [← Nat.pow_add]; congr 1; omega
  have hlog' : (n * 2 ^ (52 - n.log2)).log2 = 52 :=
    (Nat.log2_eq_iff (by omega)).mpr ⟨hshift, hdigits⟩
  exact (normal_roundWithAccuracy .positive .exact hshift (by omega)).mono (by omega) (by omega)

/-! ## No result is NaN -/

theorem isNaN_roundWithAccuracy (s : UnpackedFloat.Sign) (m : Nat) (e : Int) (accuracy : Accuracy) :
    (roundWithAccuracy Format.binary64 s m e accuracy).isNaN = false := by
  unfold roundWithAccuracy
  dsimp only
  split <;> rfl

theorem isNaN_normalize (m e : Int) (zeroSign : UnpackedFloat.Sign) :
    (UnpackedFloat.normalize Format.binary64 m e zeroSign).isNaN = false := by
  unfold UnpackedFloat.normalize
  split
  · exact isNaN_roundWithAccuracy ..
  · rfl
  · exact isNaN_roundWithAccuracy ..

end Calculator.Floats

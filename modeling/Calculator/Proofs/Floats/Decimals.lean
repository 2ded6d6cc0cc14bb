import Calculator.Number.Decimal
import Calculator.Proofs.Floats.Nearest
import Calculator.Proofs.Floats.Signs

/-!
# Decimals and the floats they are rounded to

A decimal is read by rounding the number that it is: the float does not depend on how many digits
and which exponent the number is written with. Every float is what its own number is rounded to, so
that it is read again from its exact decimal and from the shortest one that was found for it.

* `Decimal.toFloat_eq`: the float that is read.
* `Decimal.toFloat_of_value_eq`: a float that is not negative is read from its own number.
* `Decimal.toFloat_shortest`: and from its shortest decimal.
* `Decimal.leading_bounds`: the exponent of the first digit of a number that is read as a float
  other than zero.
-/

namespace Calculator

open Float.Model (UnpackedFloat Format)
open Float.Model.UnpackedFloat Floats

/-- The number that a decimal is. -/
def Decimal.value (d : Decimal) : ℚ := d.coefficient * 10 ^ d.exponent

/-- The number that a binary magnitude is. -/
def Binary.value (b : Binary) : ℚ := b.significand * 2 ^ b.exponent

/-! ## Reading a decimal -/

namespace Floats

theorem two_zpow_le_ten_zpow {k e : ℤ} (he : 0 ≤ e) (h : k ≤ e) : (2 : ℚ) ^ k ≤ 10 ^ e :=
  calc (2 : ℚ) ^ k ≤ 2 ^ e := zpow_le_zpow_right₀ one_le_two h
    _ ≤ 10 ^ e := zpow_le_zpow_left₀ he two_pos.le (by norm_num)

theorem ten_zpow_le_two_zpow {k e : ℤ} (he : e ≤ 0) (h : e ≤ k) : (10 : ℚ) ^ e ≤ 2 ^ k :=
  calc (10 : ℚ) ^ e = (10 ^ (-e))⁻¹ := by rw [zpow_neg, inv_inv]
    _ ≤ (2 ^ (-e))⁻¹ := inv_anti₀ (by positivity) (two_zpow_le_ten_zpow (by omega) le_rfl)
    _ = 2 ^ e := by rw [zpow_neg, inv_inv]
    _ ≤ 2 ^ k := zpow_le_zpow_right₀ one_le_two h

section OfScientific

variable {c : Nat} {e : ℤ} (hc : 0 < c)
include hc

/-- A decimal with a great exponent is too great. -/
theorem le_log_of_lt (he : 2048 < e) : 1024 ≤ Int.log 2 (c * 10 ^ e : ℚ) := by
  refine (Int.zpow_le_iff_le_log one_lt_two (by positivity)).mp ?_
  calc ((2 : ℕ) : ℚ) ^ (1024 : ℤ) = 2 ^ (1024 : ℤ) := by rw [Nat.cast_ofNat]
    _ ≤ 10 ^ e := two_zpow_le_ten_zpow (by omega) (by omega)
    _ ≤ c * 10 ^ e := le_mul_of_one_le_left (by positivity) (by exact_mod_cast hc)

/-- A decimal with an exponent far below its digits is too small. -/
theorem log_lt_of_lt (he : e < -(2048 + c.log2)) : Int.log 2 (c * 10 ^ e : ℚ) < -1075 := by
  refine (Int.lt_zpow_iff_log_lt one_lt_two (by positivity)).mp ?_
  calc (c * 10 ^ e : ℚ) < 2 ^ (c.log2 + 1) * 10 ^ e := by
        refine mul_lt_mul_of_pos_right ?_ (by positivity)
        exact_mod_cast Nat.lt_log2_self
    _ ≤ 2 ^ (c.log2 + 1) * 2 ^ (-2048 - c.log2 : ℤ) :=
        mul_le_mul_of_nonneg_left (ten_zpow_le_two_zpow (by omega) (by omega)) (by positivity)
    _ = 2 ^ (-2047 : ℤ) := by
        rw [← zpow_natCast, ← zpow_add₀ two_ne_zero]
        congr 1
        push_cast
        ring
    _ ≤ ((2 : ℕ) : ℚ) ^ (-1075 : ℤ) := by
        rw [Nat.cast_ofNat]
        exact zpow_le_zpow_right₀ one_le_two (by omega)

end OfScientific

/-- A decimal is read as the float nearest to it, whatever its digits and its exponent are. -/
theorem pack_ofScientific (c : Nat) (e : ℤ) :
    pack Format.binary64 (ofScientific Format.binary64 c e) =
      pack Format.binary64 (nearest (c * 10 ^ e)) := by
  unfold ofScientific
  split
  · next hzero => rw [hzero, Nat.cast_zero, zero_mul, nearest_zero]
  next hc =>
  have hpos : 0 < c := Nat.pos_of_ne_zero hc
  split
  · next he => rw [pack_nearest_of_le_log (by positivity) (le_log_of_lt hpos he)]
  split
  · next he => rw [nearest_of_log_lt (by positivity) (log_lt_of_lt hpos he)]
  split
  · next he =>
    have hvalue : ((c <<< Format.binary64.mantissaBits * 10 ^ e.toNat : ℕ) : ℚ) *
        2 ^ (-(Format.binary64.mantissaBits : ℤ) + 0) = c * 10 ^ e := by
      obtain ⟨n, rfl⟩ := Int.eq_ofNat_of_zero_le he
      rw [Nat.shiftLeft_eq, add_zero, zpow_neg, zpow_natCast, zpow_natCast, Int.toNat_natCast]
      push_cast
      field_simp
    have hlog : 0 ≤ Int.log 2 (c * 10 ^ e : ℚ) := by
      refine (Int.zpow_le_iff_le_log one_lt_two (by positivity)).mp ?_
      rw [zpow_zero]
      exact one_le_mul_of_one_le_of_one_le (by exact_mod_cast hpos)
        (one_le_zpow₀ (by norm_num) he)
    have hbits : (Format.binary64.mantissaBits : ℤ) = 53 := rfl
    rw [mul_eq_nearest (by rw [hvalue]; unfold scale; omega), hvalue]
  · next he =>
    have hvalue : (c / (10 ^ (-e).toNat : ℕ) * 2 ^ (0 - 0 : ℤ) : ℚ) = c * 10 ^ e := by
      obtain ⟨n, hn⟩ := Int.eq_ofNat_of_zero_le (show 0 ≤ -e by omega)
      obtain rfl : e = -n := by omega
      rw [sub_self, zpow_zero, mul_one, neg_neg, Int.toNat_natCast, zpow_neg, zpow_natCast,
        Nat.cast_pow, Nat.cast_ofNat, div_eq_mul_inv]
    rw [div_eq_nearest, hvalue]

theorem ofModel_pack_congr {u v : UnpackedFloat}
    (h : pack Format.binary64 u = pack Format.binary64 v) :
    Float.ofModel (.pack u) = Float.ofModel (.pack v) :=
  Float.toBits_inj.mp (UInt64.toBitVec_inj.mp h)

end Floats

namespace Decimal

variable {x : Float} {d : Decimal} {b : Binary}

/-- A decimal is read as the float nearest to it. -/
theorem toFloat_eq (d : Decimal) : d.toFloat = .ofModel (.pack (nearest d.value)) :=
  ofModel_pack_congr (pack_ofScientific d.coefficient d.exponent)

theorem value_canonical (d : Decimal) : d.canonical.value = d.value := by
  fun_induction canonical d with
  | case1 d h ih =>
    have hcoefficient : d.coefficient = 10 * (d.coefficient / 10) := by omega
    rw [ih]
    unfold value
    conv_rhs => rw [hcoefficient]
    rw [zpow_add_one₀ (by norm_num)]
    push_cast
    ring
  | case2 d h => rfl

/-- Zeros at the end of a coefficient do not matter. -/
theorem toFloat_canonical (d : Decimal) : d.canonical.toFloat = d.toFloat := by
  rw [toFloat_eq, toFloat_eq, value_canonical]

theorem value_ofBinary (b : Binary) : (ofBinary b).value = b.value := by
  unfold ofBinary Binary.value value
  split
  · next h =>
    obtain ⟨n, hn⟩ := Int.eq_ofNat_of_zero_le h
    rw [hn, Int.toNat_natCast, Nat.shiftLeft_eq, zpow_zero, mul_one, zpow_natCast]
    push_cast
    rfl
  · next h =>
    obtain ⟨n, hn⟩ := Int.eq_ofNat_of_zero_le (show 0 ≤ -b.exponent by omega)
    have hexponent : b.exponent = -n := by omega
    have hten : (10 : ℚ) ^ n = 2 ^ n * 5 ^ n := by
      rw [← mul_pow]
      norm_num
    rw [hexponent, neg_neg, Int.toNat_natCast, zpow_neg, zpow_neg, zpow_natCast, zpow_natCast,
      Nat.pow_eq, hten]
    push_cast
    field_simp

theorem value_of_whole? {n : Nat} (h : b.whole? = some n) : value ⟨n, 0⟩ = b.value := by
  unfold Binary.whole? at h
  unfold value Binary.value
  dsimp only at h ⊢
  split at h
  · next hexponent =>
    obtain ⟨k, hk⟩ := Int.eq_ofNat_of_zero_le hexponent
    obtain rfl := Option.some.inj h
    rw [hk, Int.toNat_natCast, Nat.shiftLeft_eq, zpow_zero, mul_one, zpow_natCast]
    push_cast
    rfl
  · next hexponent =>
    split at h
    · next hwhole =>
      obtain ⟨k, hk⟩ := Int.eq_ofNat_of_zero_le (show 0 ≤ -b.exponent by omega)
      obtain rfl := Option.some.inj h
      rw [hk, Int.toNat_natCast, Nat.pow_eq] at hwhole ⊢
      rw [Nat.cast_div (Nat.dvd_of_mod_eq_zero hwhole) (by positivity),
        show b.exponent = -k by omega, zpow_zero, mul_one, zpow_neg, zpow_natCast]
      push_cast
      rfl
    · nomatch h

/-! ## Floats as decimals -/

/-- A float that is not negative is read from every decimal that is the same number. -/
theorem toFloat_of_value_eq (hfinite : x.isFinite = true) (hsign : signBit x = false)
    (hb : Binary.ofFloat? x = some b) (hd : d.value = b.value) : d.toFloat = x := by
  rw [toFloat_eq, hd]
  rcases unpack_of_signBit_eq_false hfinite hsign with rfl | ⟨m, e, hm, hx⟩
  · obtain rfl : ⟨0, 0⟩ = b := Option.some.inj hb
    rw [Binary.value, Nat.cast_zero, zero_mul, nearest_zero]
    rfl
  · unfold Binary.ofFloat? at hb
    rw [hx] at hb
    obtain rfl : ⟨m, e⟩ = b := Option.some.inj hb
    rw [Binary.value, nearest_of_canonical (canonical_unpack hx) hm, ← hx, ofModel_pack_unpack]

/-- A float that is not negative is read from its shortest decimal. -/
theorem toFloat_shortest (hfinite : x.isFinite = true) (hsign : signBit x = false)
    (hb : Binary.ofFloat? x = some b) : (shortest x (ofBinary b)).toFloat = x := by
  have hexact := toFloat_of_value_eq hfinite hsign hb (value_ofBinary b)
  unfold shortest
  rw [toFloat_canonical]
  exact toFloat_shortestFrom hexact _

/-! ## The first digit -/

/-- The exponent of the first digit. -/
def leading (d : Decimal) : ℤ := d.exponent + (d.digits.length - 1 : Nat)

theorem value_bounds (h : 0 < d.coefficient) :
    10 ^ d.leading ≤ d.value ∧ d.value < 10 ^ (d.leading + 1) := by
  obtain ⟨n, hn⟩ : ∃ n, d.digits.length = n + 1 :=
    Nat.exists_eq_add_one.mpr Nat.length_toDigits_pos
  have hhigh : d.coefficient < 10 ^ (n + 1) :=
    (Nat.length_toDigits_le_iff (by decide) (Nat.succ_pos n)).mp hn.le
  have hlow : 10 ^ n ≤ d.coefficient := by
    rcases Nat.eq_zero_or_pos n with rfl | hpos
    · exact h
    · refine Nat.le_of_not_lt fun hlt => ?_
      have hle : d.digits.length ≤ n := (Nat.length_toDigits_le_iff (by decide) hpos).mpr hlt
      omega
  have hleading : d.leading = n + d.exponent := by
    rw [leading, hn, Nat.add_sub_cancel, add_comm]
  have hunit : (0 : ℚ) < 10 ^ d.exponent := by positivity
  unfold value
  constructor
  · rw [hleading, zpow_add₀ (by norm_num), zpow_natCast]
    exact mul_le_mul_of_nonneg_right (by exact_mod_cast hlow) hunit.le
  · rw [hleading, add_right_comm, zpow_add₀ (by norm_num), ← Nat.cast_succ, zpow_natCast]
    exact mul_lt_mul_of_pos_right (by exact_mod_cast hhigh) hunit

/-- A number that is read as a float other than zero has its first digit near the point. -/
theorem leading_bounds (hfinite : x.isFinite = true) (hzero : x ≠ 0.0) (h : d.toFloat = x) :
    -1077 < d.leading ∧ d.leading < 1024 := by
  rw [toFloat_eq] at h
  have hpos : 0 < d.coefficient := by
    refine Nat.pos_of_ne_zero fun hnone => hzero ?_
    rw [← h, value, hnone, Nat.cast_zero, zero_mul, nearest_zero]
    rfl
  have hvalue : 0 < d.value := by
    unfold value
    positivity
  obtain ⟨hlow, hhigh⟩ := value_bounds hpos
  constructor
  · by_contra hlt
    have hlog : Int.log 2 d.value < -1075 := by
      refine (Int.lt_zpow_iff_log_lt one_lt_two hvalue).mp (hhigh.trans_le ?_)
      rw [Nat.cast_ofNat]
      exact ten_zpow_le_two_zpow (by omega) (by omega)
    refine hzero ?_
    rw [← h, nearest_of_log_lt hvalue hlog]
    rfl
  · by_contra hge
    have hlog : 1024 ≤ Int.log 2 d.value := by
      refine (Int.zpow_le_iff_le_log one_lt_two hvalue).mp (le_trans ?_ hlow)
      rw [Nat.cast_ofNat]
      exact two_zpow_le_ten_zpow (by omega) (by omega)
    have hinfinite := h.symm.trans (ofModel_pack_congr (pack_nearest_of_le_log hvalue hlog))
    rw [hinfinite] at hfinite
    nomatch hfinite

end Decimal

end Calculator

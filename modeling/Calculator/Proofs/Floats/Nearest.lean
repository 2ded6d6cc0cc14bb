import Calculator.Proofs.Floats.Rounding

/-!
# The float nearest to a rational number

A rounding starts from the digits of a number at some exponent and from what is known of the rest.
It does not matter which exponent this is, as long as there are digits enough: the result is a
function of the number alone.

* `extend`: the digits of a number with what is known of the rest; `extend_shiftRight` and
  `extend_div` say how they are computed.
* `nearest`: the float to which a number that is not negative is rounded;
  `roundWithAccuracy_eq_nearest` says that every rounding gives it.
* `mul_eq_nearest`, `div_eq_nearest`: products and quotients.
* `nearest_of_canonical`: a number that a float has is the number of this float.
* `nearest_of_log_lt`, `pack_nearest_of_le_log`: numbers that are too small and too great.
-/

namespace Calculator.Floats

open Float.Model (UnpackedFloat Format totalExponent)
open Float.Model.UnpackedFloat

/-! ## The digits of a number -/

/-- The whole part of a number, whether the rest has a half, and whether there is more. -/
def extend (v : ℚ) : ExtendedMantissa where
  mantissa := ⌊v⌋₊
  roundBit := ⌊2 * v⌋₊ % 2 != 0
  stickyBit := decide ((⌊2 * v⌋₊ : ℚ) ≠ 2 * v)

/-- A number is whole exactly if its double is whole and even. -/
theorem floor_eq_iff_double (v : ℚ) :
    (⌊v⌋₊ : ℚ) = v ↔ ⌊2 * v⌋₊ % 2 = 0 ∧ (⌊2 * v⌋₊ : ℚ) = 2 * v := by
  constructor
  · intro h
    have hdouble : 2 * v = (2 * ⌊v⌋₊ : ℕ) := by rw [Nat.cast_mul, h, Nat.cast_ofNat]
    rw [hdouble, Nat.floor_natCast]
    exact ⟨Nat.mul_mod_right 2 _, rfl⟩
  · rintro ⟨heven, h⟩
    obtain ⟨k, hk⟩ := Nat.dvd_of_mod_eq_zero heven
    have hv : v = (k : ℕ) := by
      rw [hk, Nat.cast_mul, Nat.cast_ofNat] at h
      exact (mul_left_cancel₀ two_ne_zero h).symm
    rw [hv, Nat.floor_natCast]

theorem extend_shiftRightOne (v : ℚ) : (extend v).shiftRightOne = extend (v / 2) := by
  have hhalf : 2 * (v / 2) = v := mul_div_cancel₀ v two_ne_zero
  unfold extend ExtendedMantissa.shiftRightOne
  simp only [hhalf]
  congr 1
  · exact (Nat.floor_div_ofNat v 2).symm
  · rw [Bool.eq_iff_iff, decide_eq_true_iff, Bool.or_eq_true, decide_eq_true_iff, bne_iff_ne,
      Ne, Ne, Ne, ← not_and_or, ← floor_eq_iff_double]

theorem extend_shiftRight (v : ℚ) (k : Nat) : extend v >>> k = extend (v / 2 ^ k) := by
  show k.repeat ExtendedMantissa.shiftRightOne (extend v) = _
  induction k with
  | zero => rw [pow_zero, div_one, Nat.repeat]
  | succ k ih => rw [Nat.repeat, ih, extend_shiftRightOne, div_div, pow_succ]

/-- The digits of a whole number. -/
theorem extend_natCast (m : Nat) : extend m = .ofMantissaAndAccuracy m .exact := by
  have hdouble : (2 * m : ℚ) = (2 * m : ℕ) := by rw [Nat.cast_mul, Nat.cast_ofNat]
  unfold extend
  rw [hdouble, Nat.floor_natCast, Nat.floor_natCast, Nat.mul_mod_right]
  simp only [ne_eq, not_true, decide_false]
  rfl

/-- The double of a quotient with its remainder. -/
theorem double_div_mod (n : Nat) {d : Nat} (hd : 0 < d) :
    2 * n / d = 2 * (n / d) + (if 2 * (n % d) < d then 0 else 1) ∧
      2 * n % d = 2 * (n % d) - (if 2 * (n % d) < d then 0 else d) := by
  have hrest := Nat.mod_lt n hd
  have hsum : 2 * n = 2 * (n % d) + d * (2 * (n / d)) := by
    have := Nat.mod_add_div n d
    rw [Nat.mul_left_comm]
    omega
  rw [hsum, Nat.add_mul_div_left _ _ hd, Nat.add_mul_mod_self_left]
  generalize n % d = r at hrest ⊢
  split
  · next h => rw [Nat.div_eq_of_lt h, Nat.mod_eq_of_lt h]; omega
  · next h =>
    have hless : 2 * r - d < d := by omega
    rw [Nat.div_eq_sub_div hd (by omega), Nat.mod_eq_sub_mod (by omega),
      Nat.div_eq_of_lt hless, Nat.mod_eq_of_lt hless]
    omega

/-- The digits of a quotient, with what its remainder tells of the rest. -/
theorem extend_div (n : Nat) {d : Nat} (hd : 0 < d) :
    extend (n / d) = .ofMantissaAndAccuracy (n / d) (accuracyOfFraction (n % d) d) := by
  have hdouble : (2 * (n / d) : ℚ) = (2 * n : ℕ) / d := by
    rw [Nat.cast_mul, Nat.cast_ofNat, mul_div_assoc]
  have hwhole : ((2 * n / d : ℕ) : ℚ) = (2 * n : ℕ) / d ↔ 2 * n % d = 0 := by
    rw [eq_div_iff (by exact_mod_cast hd.ne'), ← Nat.cast_mul, Nat.cast_inj]
    have := Nat.div_add_mod' (2 * n) d
    omega
  obtain ⟨hdiv, hmod⟩ := double_div_mod n hd
  have hrest := Nat.mod_lt n hd
  unfold extend accuracyOfFraction
  rw [hdouble, Nat.floor_div_eq_div, Nat.floor_div_eq_div]
  simp only [ne_eq, hwhole]
  rw [hdiv, hmod]
  generalize n % d = r at hrest ⊢
  rcases Nat.lt_trichotomy (2 * r) d with hlt | heq | hgt
  · rw [if_pos hlt, if_pos hlt, Nat.compare_eq_lt.mpr hlt]
    by_cases hr : r = 0
    · simp [hr, ExtendedMantissa.ofMantissaAndAccuracy]
    · simp [hr, ExtendedMantissa.ofMantissaAndAccuracy]
  · have hr : r ≠ 0 := by omega
    simp [hr, heq, ExtendedMantissa.ofMantissaAndAccuracy]
  · have hr : r ≠ 0 := by omega
    have hmore : 2 * r - d ≠ 0 := by omega
    rw [if_neg (by omega), if_neg (by omega), Nat.compare_eq_gt.mpr hgt]
    simp [hr, hmore, ExtendedMantissa.ofMantissaAndAccuracy]

/-! ## The nearest float -/

/-- The exponent at which the floats near a number have their digits. -/
def scale (v : ℚ) : ℤ := max (Int.log 2 v - 52) (-1074)

/-- The float with the given digits, of which one too many is dropped. -/
def settle (m : Nat) (e : Int) : UnpackedFloat :=
  let (digits, e') := shiftToTargetExponent Format.binary64 m e .exact
  if h : digits.mantissa = 0 then .zero .positive
  else .finite .positive digits.mantissa e' (Nat.pos_of_ne_zero h)

/-- The float to which a number that is not negative is rounded: its digits at the exponent of the
floats near it, ties to even. -/
def nearest (v : ℚ) : UnpackedFloat :=
  settle (extend (v / 2 ^ scale v)).roundedMantissa (scale v)

theorem log_eq_of_le_of_lt {v : ℚ} {k : ℤ} (hlow : 2 ^ k ≤ v) (hhigh : v < 2 ^ (k + 1)) :
    Int.log 2 v = k := by
  have hpos : 0 < v := (zpow_pos two_pos k).trans_le hlow
  have hle := (Int.zpow_le_iff_le_log one_lt_two hpos).mp (by exact_mod_cast hlow)
  have hlt := (Int.lt_zpow_iff_log_lt one_lt_two hpos).mp (by exact_mod_cast hhigh)
  omega

/-- The first digit of a number is that of its whole part. -/
theorem log_mul_zpow {v : ℚ} (hv : 1 ≤ v) (e : ℤ) :
    Int.log 2 (v * 2 ^ e) = ⌊v⌋₊.log2 + e := by
  have hfloor : ⌊v⌋₊ ≠ 0 := (Nat.floor_pos.mpr hv).ne'
  have hlow : (2 : ℚ) ^ ⌊v⌋₊.log2 ≤ v :=
    calc (2 : ℚ) ^ ⌊v⌋₊.log2 ≤ ⌊v⌋₊ := by exact_mod_cast Nat.log2_self_le hfloor
      _ ≤ v := Nat.floor_le (zero_le_one.trans hv)
  have hhigh : v < (2 : ℚ) ^ (⌊v⌋₊.log2 + 1) :=
    calc v < ⌊v⌋₊ + 1 := Nat.lt_floor_add_one v
      _ ≤ (2 : ℚ) ^ (⌊v⌋₊.log2 + 1) := by exact_mod_cast Nat.lt_log2_self
  have hpos : (0 : ℚ) < 2 ^ e := zpow_pos two_pos e
  refine log_eq_of_le_of_lt ?_ ?_
  · rw [zpow_add₀ two_ne_zero, zpow_natCast]
    exact mul_le_mul_of_nonneg_right hlow hpos.le
  · rw [show (⌊v⌋₊.log2 + e + 1 : ℤ) = (⌊v⌋₊.log2 + 1 : ℕ) + e by push_cast; ring,
      zpow_add₀ two_ne_zero, zpow_natCast]
    exact mul_lt_mul_of_pos_right hhigh hpos

/-- The first shift of a rounding goes to the exponent of the floats near the number. -/
theorem shift_eq_scale {v : ℚ} {e : ℤ} (hv : 0 < v) (he : e ≤ scale (v * 2 ^ e)) :
    e + (Format.binary64.targetExponent (totalExponent ⌊v⌋₊ e) - e).toNat =
      scale (v * 2 ^ e) := by
  show e + (max ((⌊v⌋₊.log2 : ℤ) + 1 + e - 53) (-1074) - e).toNat = _
  unfold scale at he ⊢
  by_cases hone : 1 ≤ v
  · rw [log_mul_zpow hone] at he ⊢
    omega
  · -- Without a digit in front the exponent is the least one.
    have hlog : Int.log 2 (v * 2 ^ e) < e := by
      refine (Int.lt_zpow_iff_log_lt one_lt_two (by positivity)).mp ?_
      calc v * 2 ^ e < 1 * 2 ^ e := mul_lt_mul_of_pos_right (not_le.mp hone) (by positivity)
        _ = ((2 : ℕ) : ℚ) ^ e := by rw [one_mul, Nat.cast_ofNat]
    rw [Nat.floor_eq_zero.mpr (not_le.mp hone), Nat.log2_zero]
    omega

/-- Whatever exponent a rounding starts from, it gives the nearest float. -/
theorem roundWithAccuracy_eq_nearest {m : Nat} {e : ℤ} {accuracy : Accuracy} {v : ℚ} (hv : 0 < v)
    (hm : extend v = .ofMantissaAndAccuracy m accuracy) (he : e ≤ scale (v * 2 ^ e)) :
    roundWithAccuracy Format.binary64 .positive m e accuracy = nearest (v * 2 ^ e) := by
  have hfloor : ⌊v⌋₊ = m := by
    rw [← mantissa_ofMantissaAndAccuracy m accuracy, ← hm]
    rfl
  have hshift := shift_eq_scale hv he
  have hdigits : v * 2 ^ e / 2 ^ scale (v * 2 ^ e) =
      v / 2 ^ (Format.binary64.targetExponent (totalExponent m e) - e).toNat := by
    rw [← hshift, hfloor, zpow_add₀ two_ne_zero, zpow_natCast, mul_comm v,
      mul_div_mul_left _ _ (zpow_ne_zero e two_ne_zero)]
  have hfirst : shiftToTargetExponent Format.binary64 m e accuracy =
      (extend (v * 2 ^ e / 2 ^ scale (v * 2 ^ e)), scale (v * 2 ^ e)) := by
    unfold shiftToTargetExponent shiftToExponent
    dsimp only
    rw [← hm, extend_shiftRight, hdigits, ← hshift, hfloor]
  unfold roundWithAccuracy
  rw [hfirst]
  rfl

/-! ## Products and quotients -/

section Products

variable {m m' : Nat} {e e' : ℤ} {hm : 0 < m} {hm' : 0 < m'}

/-- A product is the float nearest to the exact one, if that has digits enough. -/
theorem mul_eq_nearest (h : e + e' ≤ scale ((m * m' : ℕ) * 2 ^ (e + e'))) :
    mul Format.binary64 (.finite .positive m e hm) (.finite .positive m' e' hm') =
      nearest ((m * m' : ℕ) * 2 ^ (e + e')) :=
  roundWithAccuracy_eq_nearest (by exact_mod_cast Nat.mul_pos hm hm') (extend_natCast _) h

/-- A quotient has at most one digit less than the exponents of its parts tell. -/
theorem le_log_div (hm : 0 < m) (hm' : 0 < m') (e e' : ℤ) : (m.log2 : ℤ) - m'.log2 - 1 + (e - e') ≤
    Int.log 2 ((m / m' : ℚ) * 2 ^ (e - e')) := by
  have hm0 : (0 : ℚ) < m := by exact_mod_cast hm
  have hm0' : (0 : ℚ) < m' := by exact_mod_cast hm'
  refine (Int.zpow_le_iff_le_log one_lt_two (by positivity)).mp ?_
  rw [Nat.cast_ofNat, zpow_add₀ two_ne_zero]
  refine mul_le_mul_of_nonneg_right ?_ (by positivity)
  rw [le_div_iff₀ hm0']
  calc (2 : ℚ) ^ ((m.log2 : ℤ) - m'.log2 - 1) * m'
      ≤ 2 ^ ((m.log2 : ℤ) - m'.log2 - 1) * 2 ^ (m'.log2 + 1) := by
        refine mul_le_mul_of_nonneg_left ?_ (by positivity)
        exact_mod_cast Nat.lt_log2_self.le
    _ = 2 ^ m.log2 := by
        rw [← zpow_natCast, ← zpow_natCast, ← zpow_add₀ two_ne_zero]
        congr 1
        push_cast
        ring
    _ ≤ m := by exact_mod_cast Nat.log2_self_le hm.ne'

/-- A quotient is the float nearest to the exact one. -/
theorem div_eq_nearest :
    div Format.binary64 (.finite .positive m e hm) (.finite .positive m' e' hm') =
      nearest (m / m' * 2 ^ (e - e')) := by
  have hlog := le_log_div hm hm' e e'
  obtain ⟨start, hstart⟩ : ∃ start, start = min (e - e') (Format.binary64.targetExponent
      (totalExponent m e - totalExponent m' e')) := ⟨_, rfl⟩
  have hle : start ≤ e - e' := by omega
  have hscale : start ≤ scale (m / m' * 2 ^ (e - e')) := by
    have htarget : start ≤
        max ((m.log2 : ℤ) + 1 + e - (m'.log2 + 1 + e') - 53) (-1074) := by
      rw [hstart]
      exact min_le_right _ _
    unfold scale
    omega
  have hvalue : ((m <<< (e - e' - start).toNat : ℕ) / m' : ℚ) * 2 ^ start =
      m / m' * 2 ^ (e - e') := by
    rw [Nat.shiftLeft_eq]
    push_cast
    rw [mul_div_right_comm, mul_assoc, ← zpow_natCast, ← zpow_add₀ two_ne_zero]
    congr 2
    omega
  show roundWithAccuracy Format.binary64 .positive _ (min (e - e') (Format.binary64.targetExponent
      (totalExponent m e - totalExponent m' e'))) _ = _
  rw [← hstart, ← hvalue]
  refine roundWithAccuracy_eq_nearest ?_ (extend_div _ hm') (by rwa [hvalue])
  have hshift : 0 < m <<< (e - e' - start).toNat := by
    rw [Nat.shiftLeft_eq]
    positivity
  positivity

end Products

/-! ## Numbers that a float has -/

theorem Canonical.log_eq {m : Nat} {e : ℤ} (h : Canonical m e) (hm : 0 < m) :
    max (m.log2 + e - 52) (-1074) = e := by
  have hlt : m.log2 < 53 := (Nat.log2_lt hm.ne').mpr h.mantissa_lt
  have hleast := h.le_exponent
  rcases h.normal with hnormal | heq
  · have hle : 52 ≤ m.log2 := (Nat.le_log2 hm.ne').mpr hnormal
    omega
  · omega

theorem settle_canonical {m : Nat} {e : ℤ} (h : Canonical m e) (hm : 0 < m) :
    settle m e = .finite .positive m e hm := by
  have htarget : Format.binary64.targetExponent (totalExponent m e) = e := by
    show max ((m.log2 : ℤ) + 1 + e - 53) (-1074) = e
    rw [show (m.log2 : ℤ) + 1 + e - 53 = m.log2 + e - 52 by ring, h.log_eq hm]
  have hdigits : (ExtendedMantissa.ofMantissaAndAccuracy m .exact >>> 0).mantissa = m := rfl
  unfold settle shiftToTargetExponent shiftToExponent
  simp only [htarget, sub_self, Int.toNat_zero, hdigits, Nat.cast_zero, add_zero]
  rw [dif_neg hm.ne']

/-- A number that a float has is the number of this float. -/
theorem nearest_of_canonical {m : Nat} {e : ℤ} (h : Canonical m e) (hm : 0 < m) :
    nearest (m * 2 ^ e) = .finite .positive m e hm := by
  have hscale : scale (m * 2 ^ e) = e := by
    unfold scale
    rw [log_mul_zpow (by exact_mod_cast hm), Nat.floor_natCast, h.log_eq hm]
  have hrounded : (extend (m : ℚ)).roundedMantissa = m := by
    rw [extend_natCast]
    rfl
  unfold nearest
  rw [hscale, mul_div_cancel_right₀ _ (zpow_ne_zero e two_ne_zero), hrounded, settle_canonical h hm]

/-! ## Numbers that no float has -/

theorem settle_zero (e : ℤ) : settle 0 e = .zero .positive := by
  unfold settle shiftToTargetExponent shiftToExponent
  dsimp only
  rw [dif_pos (by rw [mantissa_shiftRight]; exact Nat.zero_div _)]

theorem nearest_zero : nearest 0 = .zero .positive := by
  have hrounded : (extend 0).roundedMantissa = 0 := by
    rw [← Nat.cast_zero, extend_natCast]
    rfl
  unfold nearest
  rw [zero_div, hrounded, settle_zero]

/-- A number below half of the least float is rounded to zero. -/
theorem nearest_of_log_lt {v : ℚ} (hpos : 0 < v) (hlog : Int.log 2 v < -1075) :
    nearest v = .zero .positive := by
  have h : v < ((2 : ℕ) : ℚ) ^ (-1075 : ℤ) := (Int.lt_zpow_iff_log_lt one_lt_two hpos).mpr hlog
  have hscale : scale v = -1074 := by
    unfold scale
    omega
  have hhalf : 2 * (v / 2 ^ scale v) < 1 := by
    rw [hscale, ← mul_div_assoc, div_lt_one (by positivity)]
    calc 2 * v < 2 * ((2 : ℕ) : ℚ) ^ (-1075 : ℤ) := mul_lt_mul_of_pos_left h two_pos
      _ = 2 ^ (-1074 : ℤ) := by rw [Nat.cast_ofNat, ← zpow_one_add₀ two_ne_zero]; rfl
  have hrounded : (extend (v / 2 ^ scale v)).roundedMantissa = 0 := by
    have hnonneg : 0 ≤ v / 2 ^ scale v := by positivity
    unfold extend
    rw [Nat.floor_eq_zero.mpr hhalf, Nat.floor_eq_zero.mpr (by linarith)]
    generalize decide (((0 : ℕ) : ℚ) ≠ _) = rest
    cases rest <;> rfl
  unfold nearest
  rw [hrounded, settle_zero]

/-- A number that is too great is packed as infinity. -/
theorem pack_nearest_of_le_log {v : ℚ} (hpos : 0 < v) (hlog : 1024 ≤ Int.log 2 v) :
    pack Format.binary64 (nearest v) = pack Format.binary64 (.infinity .positive) := by
  have hscale : scale v = Int.log 2 v - 52 := by
    unfold scale
    omega
  -- The number has all the digits of a mantissa, which the rounding keeps.
  have hdigits : 2 ^ 52 ≤ (extend (v / 2 ^ scale v)).roundedMantissa := by
    refine le_trans (Nat.le_floor ?_) (roundedMantissa_bounds (extend (v / 2 ^ scale v))).1
    rw [le_div_iff₀ (by positivity), hscale]
    calc ((2 ^ 52 : ℕ) : ℚ) * 2 ^ (Int.log 2 v - 52) = ((2 : ℕ) : ℚ) ^ Int.log 2 v := by
          rw [Nat.cast_pow, Nat.cast_ofNat, ← zpow_natCast, ← zpow_add₀ two_ne_zero]
          congr 1
          omega
      _ ≤ v := Int.zpow_log_le_self one_lt_two hpos
  unfold nearest settle
  generalize (extend (v / 2 ^ scale v)).roundedMantissa = m at hdigits ⊢
  have hkept : (ExtendedMantissa.ofMantissaAndAccuracy m .exact >>> (m.log2 - 52)).mantissa =
      m / 2 ^ (m.log2 - 52) := by
    rw [mantissa_shiftRight, mantissa_ofMantissaAndAccuracy]
  have hlow := (div_two_pow_log2_bounds hdigits).1
  simp only [shiftToTargetExponent_eq .exact hdigits (show -1074 ≤ scale v by omega), hkept]
  rw [dif_neg (by omega)]
  unfold pack
  dsimp only
  rw [biased_eq, if_pos (show 2 ^ 11 ≤ _ by omega)]

end Calculator.Floats

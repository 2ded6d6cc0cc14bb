import Calculator.Arithmetic
import Mathlib.Algebra.Ring.Int.Parity
import Mathlib.Tactic.Linarith
import Mathlib.Tactic.NormNum.IsSquare
import Mathlib.Tactic.Ring

/-!
# Exact arithmetic on integers

`Operation.exactValue?` is an operation on the integers without bounds, where it has an integer
result. An operation on two numbers gives an integer exactly if both are integers, the exact result
is one, and it fits 64 bits. No other path leads to an integer: what is computed on floats stays a
float.

* `mulPow?_eq_some_iff`, `powInt?_eq_some_iff`: a power that is an integer of 64 bits is the exact
  one.
* `Operation.toInt_floorModInt`: the modulus is that of floored division.
* `Operation.apply_eq_int_iff`, `Sign.apply_eq_int_iff`: the integer results.
-/

namespace Calculator

/-- A sign in front of an integer. -/
def Sign.exact : Sign → Int → Int
  | plus, a => a
  | minus, a => -a

/-- The result of an operation on two integers, if it is an integer by definition: no quotient is,
the modulus is that of floored division by an integer other than zero, and a power has an exponent
that is not negative. -/
def Operation.exactValue? : Operation → Int → Int → Option Int
  | add, a, b => some (a + b)
  | sub, a, b => some (a - b)
  | mul, a, b => some (a * b)
  | div, _, _ => none
  | mod, a, b => if b = 0 then none else some (a.fmod b)
  | pow, a, b => if b < 0 then none else some (a ^ b.toNat)

/-- The integer, if it fits 64 bits. -/
def fit? (z : Int) : Option Int := if -2 ^ 63 ≤ z ∧ z < 2 ^ 63 then some z else none

theorem exactInt?_eq_some_iff {z : Int} {n : Int64} : exactInt? z = some n ↔ z = n.toInt := by
  have hmin : Int64.minValue.toInt = -2 ^ 63 := rfl
  have hmax : Int64.maxValue.toInt = 2 ^ 63 - 1 := rfl
  unfold exactInt?
  rw [hmin, hmax]
  by_cases hfits : -2 ^ 63 ≤ z ∧ z ≤ 2 ^ 63 - 1
  · have hz : (Int64.ofInt z).toInt = z := Int64.toInt_ofInt_of_le hfits.1 (by omega)
    rw [if_pos hfits, Option.some.injEq, ← Int64.toInt_inj, hz]
  · have hlow := n.le_toInt
    have hhigh := n.toInt_lt
    simp only [hfits, if_false, reduceCtorEq, false_iff]
    omega

theorem fit?_eq_some_iff {z : Int} {n : Int64} : fit? z = some n.toInt ↔ z = n.toInt := by
  unfold fit?
  by_cases hfits : -2 ^ 63 ≤ z ∧ z < 2 ^ 63
  · rw [if_pos hfits, Option.some.injEq]
  · have hlow := n.le_toInt
    have hhigh := n.toInt_lt
    simp only [hfits, if_false, reduceCtorEq, false_iff]
    omega

/-- An integer that fits 64 bits is one of 64 bits. -/
theorem exists_toInt_of_fit? {z z' : Int} (h : fit? z = some z') : ∃ n : Int64, n.toInt = z' := by
  unfold fit? at h
  by_cases hfits : -2 ^ 63 ≤ z ∧ z < 2 ^ 63
  · rw [if_pos hfits, Option.some.injEq] at h
    exact ⟨.ofInt z, h ▸ Int64.toInt_ofInt_of_le hfits.1 hfits.2⟩
  · rw [if_neg hfits] at h
    nomatch h

/-! ## Powers -/

theorem mulInt?_eq_some_iff {a b n : Int64} : mulInt? a b = some n ↔ a.toInt * b.toInt = n.toInt :=
  exactInt?_eq_some_iff

/-- What is no integer of 64 bits lies beyond them. -/
theorem lt_or_le_of_exactInt?_eq_none {z : Int} (h : exactInt? z = none) :
    z < -2 ^ 63 ∨ 2 ^ 63 ≤ z := by
  have hmin : Int64.minValue.toInt = -2 ^ 63 := rfl
  have hmax : Int64.maxValue.toInt = 2 ^ 63 - 1 := rfl
  unfold exactInt? at h
  rw [hmin, hmax] at h
  by_cases hfits : -2 ^ 63 ≤ z ∧ z ≤ 2 ^ 63 - 1
  · rw [if_pos hfits] at h
    nomatch h
  · omega

/-- A factor does not bring a product back that has left the integers of 64 bits. -/
theorem mul_ne_toInt {z w : Int} (hz : exactInt? z = none) (hw : 0 < w) (n : Int64) :
    z * w ≠ n.toInt := by
  have hlow := n.le_toInt
  have hhigh := n.toInt_lt
  rcases lt_or_le_of_exactInt?_eq_none hz with hz | hz
  · have : z * w ≤ z := by nlinarith
    omega
  · have : z ≤ z * w := by nlinarith
    omega

/-- No square lies just beyond the integers of 64 bits, so that its opposite would be one. -/
theorem square_mul_ne_toInt {b w : Int} (hb : exactInt? (b * b) = none) (hw : w ≠ 0) (n : Int64) :
    b * b * w ≠ n.toInt := by
  have hlow := n.le_toInt
  have hhigh := n.toInt_lt
  have hne : (2 ^ 63 : Int) ≠ b * b := fun h => by
    have hsquare : ¬IsSquare (2 ^ 63 : Int) := by norm_num
    exact hsquare ⟨b, h⟩
  have hnonneg := mul_self_nonneg b
  have hbeyond := lt_or_le_of_exactInt?_eq_none hb
  have hsquare : 2 ^ 63 < b * b := by omega
  rcases lt_or_gt_of_ne hw with hw | hw
  · have : b * b * w ≤ -(b * b) := by nlinarith
    omega
  · have : b * b ≤ b * b * w := by nlinarith
    omega

theorem toInt_ne_zero_of_mulInt?_eq_none {a b : Int64} (h : mulInt? a b = none) :
    b.toInt ≠ 0 := fun hb => by
  rw [mulInt?, hb, Int.mul_zero] at h
  nomatch h

/-- The power of a square by half of an even exponent. -/
theorem pow_eq_square_pow (b : Int) {k : Nat} (h : k % 2 ≠ 1) : b ^ k = (b * b) ^ (k / 2) := by
  have hk : k = 2 * (k / 2) := by omega
  conv => lhs; rw [hk, pow_mul, pow_two]

/-- An odd exponent leaves a factor over. -/
theorem pow_eq_mul_square_pow (b : Int) {k : Nat} (h : k % 2 = 1) :
    b ^ k = b * (b * b) ^ (k / 2) := by
  have hk : k = 2 * (k / 2) + 1 := by omega
  conv => lhs; rw [hk, pow_succ', pow_mul, pow_two]

/-- A squaring inside the loop. Where it leaves the integers of 64 bits, so does the product. -/
theorem mulPow?_square {value base n : Int64} {k : Nat} (hk : k ≠ 0)
    (hzero : value.toInt = 0 → base.toInt = 0)
    (ih : ∀ {square : Int64}, (value.toInt = 0 → square.toInt = 0) →
      (mulPow? value square k = some n ↔ value.toInt * square.toInt ^ k = n.toInt)) :
    ((mulInt? base base).bind fun square => mulPow? value square k) = some n ↔
      value.toInt * (base.toInt * base.toInt) ^ k = n.toInt := by
  cases hsquare : mulInt? base base with
  | some square =>
    have heq := mulInt?_eq_some_iff.mp hsquare
    rw [Option.bind_some, heq]
    refine ih fun hvalue => ?_
    rw [← heq, hzero hvalue, Int.mul_zero]
  | none =>
    have hbase := toInt_ne_zero_of_mulInt?_eq_none hsquare
    obtain ⟨j, rfl⟩ := Nat.exists_eq_succ_of_ne_zero hk
    have hrest : value.toInt * (base.toInt * base.toInt) ^ j ≠ 0 :=
      Int.mul_ne_zero (mt hzero hbase) (pow_ne_zero j (Int.mul_ne_zero hbase hbase))
    have hmove : value.toInt * (base.toInt * base.toInt) ^ (j + 1) =
        base.toInt * base.toInt * (value.toInt * (base.toInt * base.toInt) ^ j) := by
      ring
    rw [Option.bind_none, hmove]
    exact ⟨nofun, fun h => absurd h (square_mul_ne_toInt hsquare hrest n)⟩

/-- The loop gives the exact product. It stops at the first step that leaves the integers of 64
bits: no factor leads back to them. -/
theorem mulPow?_eq_some_iff {value base n : Int64} {exponent : Nat}
    (hzero : value.toInt = 0 → base.toInt = 0) :
    mulPow? value base exponent = some n ↔
      value.toInt * base.toInt ^ exponent = n.toInt := by
  induction exponent using Nat.strongRecOn generalizing value base with
  | ind exponent ih =>
    rw [mulPow?]
    by_cases hdone : exponent = 0
    · rw [if_pos hdone, hdone, Int.pow_zero, Int.mul_one, Option.some.injEq, Int64.toInt_inj]
    rw [if_neg hdone]
    have hhalf : exponent / 2 < exponent := by omega
    by_cases hodd : exponent % 2 = 1
    · rw [if_pos hodd, pow_eq_mul_square_pow _ hodd, ← Int.mul_assoc]
      cases hvalue : mulInt? value base with
      | none =>
        have hbase := toInt_ne_zero_of_mulInt?_eq_none hvalue
        have hrest : 0 < (base.toInt * base.toInt) ^ (exponent / 2) :=
          pow_pos (mul_self_pos.mpr hbase) _
        exact ⟨nofun, fun h => absurd h (mul_ne_toInt hvalue hrest n)⟩
      | some value' =>
        have heq := mulInt?_eq_some_iff.mp hvalue
        rw [Option.bind_eq_bind, Option.bind_some, heq]
        by_cases hlast : exponent = 1
        · rw [if_pos hlast, hlast, Option.some.injEq, ← Int64.toInt_inj]
          simp
        · rw [if_neg hlast]
          refine mulPow?_square (by omega) (fun hvalue' => ?_) (ih _ hhalf)
          rw [hvalue'] at heq
          exact (Int.mul_eq_zero.mp heq).elim hzero id
    · rw [if_neg hodd, pow_eq_square_pow _ hodd]
      exact mulPow?_square (by omega) hzero (ih _ hhalf)

/-- From the 64th power on, only zero, one and minus one have powers that fit 64 bits. -/
theorem not_fits_pow {base : Int} {k : Nat} (hk : 64 ≤ k) (h0 : base ≠ 0) (h1 : base ≠ 1)
    (h2 : base ≠ -1) (n : Int64) : base ^ k ≠ n.toInt := by
  intro h
  have hbase : 2 ≤ base.natAbs := by omega
  have hpow : 2 ^ 64 ≤ (base ^ k).natAbs := by
    rw [Int.natAbs_pow]
    exact Nat.le_trans (Nat.pow_le_pow_right (by decide) hk) (Nat.pow_le_pow_left hbase k)
  have hlow := n.le_toInt
  have hhigh := n.toInt_lt
  rw [h] at hpow
  omega

theorem toInt_mod_two_eq_zero_iff {b : Int64} (hb : 0 < b.toInt) :
    b % 2 = 0 ↔ Even b.toInt.toNat := by
  rw [← Int64.toInt_inj, Int64.toInt_mod, Nat.even_iff]
  have htwo : (2 : Int64).toInt = 2 := rfl
  rw [htwo, Int64.toInt_zero, Int.tmod_eq_emod_of_nonneg (Int.le_of_lt hb)]
  omega

/-- A power that is an integer of 64 bits is the exact one. -/
theorem powInt?_eq_some_iff {a b n : Int64} :
    powInt? a b = some n ↔ ¬b.toInt < 0 ∧ a.toInt ^ b.toInt.toNat = n.toInt := by
  unfold powInt?
  have hsize : UInt32.size = 2 ^ 32 := rfl
  by_cases hword : 0 ≤ b.toInt ∧ b.toInt.toNat < UInt32.size
  · rw [if_pos hword, mulPow?_eq_some_iff (fun h => absurd h (by decide)), Int64.toInt_one,
      Int.one_mul, and_iff_right (Int.not_lt.mpr hword.1)]
  rw [if_neg hword]
  have hzero : (0 : Int64).toInt = 0 := rfl
  have hsign : 0 < b ↔ 0 < b.toInt := by rw [Int64.lt_iff_toInt_lt, hzero]
  by_cases hpos : 0 < b.toInt
  · have hk : 64 ≤ b.toInt.toNat := by omega
    rw [if_pos (hsign.mpr hpos), and_iff_right (Int.not_lt.mpr (Int.le_of_lt hpos))]
    by_cases h01 : a = 0 ∨ a = 1
    · have hself : a.toInt ^ b.toInt.toNat = a.toInt := by
        rcases h01 with rfl | rfl
        · exact Int.zero_pow (by omega)
        · exact Int.one_pow
      rw [if_pos h01, hself, Option.some.injEq, Int64.toInt_inj]
    rw [if_neg h01]
    by_cases hminus : a = -1
    · have hone : (-1 : Int64).toInt = -1 := rfl
      rw [if_pos hminus, hminus, hone, neg_one_pow_eq_ite, Option.some.injEq, ← Int64.toInt_inj]
      simp only [toInt_mod_two_eq_zero_iff hpos]
      split <;> rfl
    · rw [if_neg hminus]
      refine ⟨nofun, fun hpow => absurd hpow (not_fits_pow hk ?_ ?_ ?_ n)⟩
      · exact fun h => h01 (.inl (Int64.toInt_inj.mp h))
      · exact fun h => h01 (.inr (Int64.toInt_inj.mp h))
      · exact fun h => hminus (Int64.toInt_inj.mp h)
  · rw [if_neg (mt hsign.mp hpos)]
    exact ⟨nofun, fun h => by omega⟩

/-! ## The modulus -/

/-- The truncated remainder, moved by a divisor of the other sign, is the floored modulus. -/
theorem fmod_eq_ite_tmod (a : Int) {b : Int} (hb : b ≠ 0) : a.fmod b =
    if a.tmod b ≠ 0 ∧ ¬(a.tmod b < 0 ↔ b < 0) then a.tmod b + b else a.tmod b := by
  have hlow := Int.emod_nonneg a hb
  have hhigh := Int.emod_lt a hb
  rw [Int.tmod_eq_emod, Int.fmod_eq_emod]
  simp only [Int.dvd_iff_emod_eq_zero]
  split <;> split <;> split <;> omega

/-- A sum of two integers of 64 bits with different signs fits 64 bits. -/
theorem toInt_add_of_signs {a b : Int64} (h : ¬(a.toInt < 0 ↔ b.toInt < 0)) :
    (a + b).toInt = a.toInt + b.toInt := by
  have hlowa := a.le_toInt
  have hhigha := a.toInt_lt
  have hlowb := b.le_toInt
  have hhighb := b.toInt_lt
  rw [Int64.toInt_add]
  exact Int.bmod_eq_of_le (by omega) (by omega)

/-- The modulus of two integers of 64 bits is that of floored division. -/
theorem Operation.toInt_floorModInt {a b : Int64} (hb : b.toInt ≠ 0) :
    (floorModInt a b).toInt = a.toInt.fmod b.toInt := by
  have hrest : (a % b).toInt = a.toInt.tmod b.toInt := Int64.toInt_mod a b
  have hmoves : ((a % b != 0 && (decide (a % b < 0)) != (decide (b < 0))) = true) ↔
      (a % b).toInt ≠ 0 ∧ ¬((a % b).toInt < 0 ↔ b.toInt < 0) := by
    simp only [Bool.and_eq_true, bne_iff_ne, ne_eq, decide_eq_decide, Int64.lt_iff_toInt_lt,
      ← Int64.toInt_inj, Int64.toInt_zero]
  rw [fmod_eq_ite_tmod _ hb, ← hrest, floorModInt]
  split
  · next h => rw [if_pos (hmoves.mp h), toInt_add_of_signs (hmoves.mp h).2]
  · next h => rw [if_neg (mt hmoves.mpr h)]

example : Operation.floorModInt (-7) 3 = 2 ∧ Operation.floorModInt 7 (-3) = -2 ∧
    Operation.floorModInt Int64.minValue (-1) = 0 := by decide

/-! ## Operations and signs -/

namespace Operation

variable {operation : Operation}

/-- Where the right operand is no forbidden zero, the integer result is the exact one. -/
theorem onInts?_eq_some_iff {a b n : Int64}
    (h : (operation.divides && (Number.int b).isZero) = false) :
    operation.onInts? a b = some n ↔ operation.exactValue? a.toInt b.toInt = some n.toInt := by
  cases operation with
  | add | sub =>
    rw [onInts?, exactValue?, exactInt?_eq_some_iff, Option.some.injEq]
  | mul => rw [onInts?, exactValue?, mulInt?_eq_some_iff, Option.some.injEq]
  | div => exact ⟨nofun, nofun⟩
  | mod =>
    have hb : b.toInt ≠ 0 := by
      intro hzero
      have hb : b = 0 := Int64.toInt_inj.mp hzero
      subst hb
      nomatch h
    rw [onInts?, exactValue?, if_neg hb, Option.some.injEq, Option.some.injEq,
      ← Int64.toInt_inj, toInt_floorModInt hb]
  | pow =>
    rw [onInts?, exactValue?, powInt?_eq_some_iff]
    by_cases hneg : b.toInt < 0
    · simp [hneg]
    · rw [if_neg hneg, and_iff_right hneg, Option.some.injEq]

/-- A result on floats is no integer. -/
theorem finiteAt_ne_int (span : Span) (x : Float) (n : Int64) : finiteAt span x ≠ .ok (.int n) := by
  unfold finiteAt
  by_cases hnan : x.isNaN = true
  · rw [if_pos hnan]
    nofun
  rw [if_neg hnan]
  by_cases hinf : x.isInf = true
  · rw [if_pos hinf]
    nofun
  · rw [if_neg hinf]
    nofun

theorem onFloats_ne_int (x y : Float) (span : Span) (n : Int64) :
    operation.onFloats x y span ≠ .ok (.int n) := by
  cases operation with
  | pow =>
    unfold onFloats
    by_cases hzero : (x == 0.0 && y < 0.0) = true
    · dsimp only
      rw [if_pos hzero]
      nofun
    · dsimp only
      rw [if_neg hzero]
      exact finiteAt_ne_int span _ n
  | _ => exact finiteAt_ne_int span _ n

/-- An operation gives an integer exactly if both operands are integers and the exact result is this
integer. -/
theorem apply_eq_int_iff {left right : Number} {span : Span} {n : Int64} :
    operation.apply left right span = .ok (.int n) ↔ ∃ a b : Int64, left = .int a ∧
      right = .int b ∧ operation.exactValue? a.toInt b.toInt = some n.toInt := by
  unfold apply
  cases hzero : operation.divides && right.isZero with
  | true =>
    refine ⟨nofun, ?_⟩
    rintro ⟨a, b, rfl, rfl, h⟩
    have hb : b.toInt = 0 := by
      obtain rfl : b = 0 := eq_of_beq (Bool.and_eq_true_iff.mp hzero).2
      rfl
    cases operation <;> simp [divides, exactValue?, hb] at hzero h
  | false =>
    rw [if_neg (by nofun)]
    cases left with
    | float x =>
      refine ⟨fun h => absurd h (onFloats_ne_int _ _ span n), ?_⟩
      rintro ⟨a, b, ha, -⟩
      nomatch ha
    | int a =>
      cases right with
      | float y =>
        refine ⟨fun h => absurd h (onFloats_ne_int _ _ span n), ?_⟩
        rintro ⟨a, b, -, hb, -⟩
        nomatch hb
      | int b =>
        have hexact := onInts?_eq_some_iff (a := a) (n := n) hzero
        dsimp only
        constructor
        · intro h
          refine ⟨a, b, rfl, rfl, hexact.mp ?_⟩
          cases hint : operation.onInts? a b with
          | none => exact absurd (hint ▸ h) (onFloats_ne_int _ _ span n)
          | some m =>
            rw [hint] at h
            rw [Number.int.inj (Except.ok.inj h)]
        · rintro ⟨a', b', ha, hb, h⟩
          obtain rfl := Number.int.inj ha
          obtain rfl := Number.int.inj hb
          rw [hexact.mpr h]

end Operation

/-- A signed number is an integer exactly if its operand is one and its value with the sign is this
integer. -/
theorem Sign.apply_eq_int_iff {sign : Sign} {x : Number} {n : Int64} :
    sign.apply x = .int n ↔ ∃ a : Int64, x = .int a ∧ sign.exact a.toInt = n.toInt := by
  cases x with
  | float x =>
    refine ⟨fun h => ?_, fun ⟨a, ha, _⟩ => nomatch ha⟩
    cases sign <;> nomatch h
  | int a =>
    have hint : (∃ b : Int64, Number.int a = .int b ∧ sign.exact b.toInt = n.toInt) ↔
        sign.exact a.toInt = n.toInt :=
      ⟨fun ⟨b, hb, h⟩ => Number.int.inj hb ▸ h, fun h => ⟨a, rfl, h⟩⟩
    rw [hint]
    cases sign with
    | plus => rw [apply, exact, Number.int.injEq, ← Int64.toInt_inj]
    | minus =>
      rw [apply, exact, ← exactInt?_eq_some_iff]
      cases exactInt? (-a.toInt) with
      | none => exact ⟨nofun, nofun⟩
      | some m => rw [Number.int.injEq, Option.some.injEq]

end Calculator

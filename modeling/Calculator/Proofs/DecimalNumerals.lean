import Calculator.Literal
import Calculator.Proofs.Floats.Decimals
import Calculator.Proofs.Numeral

/-!
# Written decimals are numerals

What is written for a decimal, with a point or with an exponent, is one numeral of the same number,
and its point or its exponent marks it as a float.

* `Decimal.pointed`, `Decimal.scaled`: the numerals that are written.
* `Decimal.text_pointed`, `Decimal.value_pointed`: a decimal with a point.
* `Decimal.text_scaled`, `Decimal.toDecimal_scaled`: a decimal with an exponent, which is read again
  unless the exponent is enormous.
-/

namespace Calculator

namespace Numeral

/-! ## Exponents -/

namespace Exponent

/-- An integer as an exponent. -/
def ofInt (z : Int) : Exponent :=
  ⟨'e', if z < 0 then some .minus else none, Nat.toDigits 10 z.natAbs⟩

theorem text_ofInt (z : Int) : (ofInt z).text = 'e' :: (toString z).toList := by
  rw [Int.toString_eq_repr, Int.repr_eq_if]
  unfold ofInt text
  dsimp only
  by_cases hz : 0 ≤ z
  · rw [if_neg (by omega), if_pos hz, Nat.toList_repr, show z.natAbs = z.toNat by omega]
    rfl
  · rw [if_pos (by omega), if_neg hz, String.toList_append, Nat.toList_repr,
      show z.natAbs = (-z).toNat by omega]
    rfl

theorem wellFormed_ofInt (z : Int) : (ofInt z).WellFormed where
  mark := .inl rfl
  digits _ := Nat.isDigit_of_mem_toDigits (by decide) (by decide)
  ne_nil := Nat.toDigits_ne_nil

/-- The digits of an exponent all count as long as they are a small number. -/
theorem foldl_eq_ofDigitChars {digits : List Char} {value : Nat}
    (h : Nat.ofDigitChars 10 digits value < 65536) :
    digits.foldl (fun value digit =>
      if value < 65536 then 10 * value + (digit.toNat - '0'.toNat) else value) value =
      Nat.ofDigitChars 10 digits value := by
  induction digits generalizing value with
  | nil => exact Nat.ofDigitChars_nil.symm
  | cons c cs ih =>
    have hvalue : value < 65536 := by
      rw [Nat.ofDigitChars_eq_ofDigitChars_zero] at h
      have hpow : 0 < 10 ^ (c :: cs).length := Nat.pow_pos (by decide)
      have := Nat.le_mul_of_pos_left value hpow
      omega
    rw [Nat.ofDigitChars_cons] at h ⊢
    rw [List.foldl_cons, if_pos hvalue]
    exact ih h

/-- A small integer is the value of its exponent. -/
theorem value_ofInt {z : Int} (h : z.natAbs < 65536) : (ofInt z).value = z := by
  have hdigits : Nat.ofDigitChars 10 (Nat.toDigits 10 z.natAbs) 0 < 65536 := by
    rwa [Nat.ofDigitChars_ten_toDigits]
  unfold ofInt value
  dsimp only
  rw [foldl_eq_ofDigitChars hdigits, Nat.ofDigitChars_ten_toDigits]
  by_cases hz : z < 0
  · rw [if_pos hz]
    show -(z.natAbs : ℤ) = z
    omega
  · rw [if_neg hz]
    show (z.natAbs : ℤ) = z
    omega

end Exponent

end Numeral

namespace Decimal

variable (d : Decimal)

theorem isDigit_of_mem_digits {c : Char} (h : c ∈ d.digits) : c.isDigit = true :=
  Nat.isDigit_of_mem_toDigits (by decide) (by decide) h

theorem digits_ne_nil : d.digits ≠ [] := Nat.toDigits_ne_nil

theorem ofDigitChars_digits : Nat.ofDigitChars 10 d.digits 0 = d.coefficient :=
  Nat.ofDigitChars_ten_toDigits

/-! ## Decimals with a point -/

/-- The digits behind so many zeros that there is one more than the places behind the point. -/
def padded (places : Nat) : List Char :=
  List.replicate (places + 1 - d.digits.length) '0' ++ d.digits

theorem isDigit_of_mem_padded {places : Nat} {c : Char} (h : c ∈ d.padded places) :
    c.isDigit = true := by
  rcases List.mem_append.mp h with hzero | hdigit
  · rw [List.eq_of_mem_replicate hzero]
    rfl
  · exact d.isDigit_of_mem_digits hdigit

theorem lt_length_padded (places : Nat) : places < (d.padded places).length := by
  rw [padded, List.length_append, List.length_replicate]
  omega

theorem ofDigitChars_padded (places : Nat) :
    Nat.ofDigitChars 10 (d.padded places) 0 = d.coefficient := by
  rw [padded, Nat.ofDigitChars_append, Nat.ofDigitChars_replicate_zero, Nat.mul_zero,
    ofDigitChars_digits]

/-- The numeral that is written for a decimal with a point. -/
def pointed : Numeral :=
  if 0 ≤ d.exponent then ⟨d.digits ++ List.replicate d.exponent.toNat '0', some ['0'], none⟩
  else
    let places := (-d.exponent).toNat
    let whole := (d.padded places).length - places
    ⟨(d.padded places).take whole, some ((d.padded places).drop whole), none⟩

theorem text_pointed : d.pointed.text = d.positional := by
  unfold pointed positional
  split <;> simp [Numeral.text, Numeral.fractionText, padded]

theorem point_mem_pointed : '.' ∈ d.pointed.text := by
  unfold pointed
  split <;> simp [Numeral.text, Numeral.fractionText]

theorem wellFormed_pointed : d.pointed.WellFormed := by
  unfold pointed
  split
  · refine ⟨fun c hc => ?_, fun c hc => ?_, .inr (List.cons_ne_nil _ _), nofun⟩
    · rcases List.mem_append.mp hc with hdigit | hzero
      · exact d.isDigit_of_mem_digits hdigit
      · rw [List.eq_of_mem_replicate hzero]
        rfl
    · rw [List.mem_singleton.mp hc]
      rfl
  · have hlength := d.lt_length_padded (-d.exponent).toNat
    refine ⟨fun c hc => d.isDigit_of_mem_padded (List.mem_of_mem_take hc),
      fun c hc => d.isDigit_of_mem_padded (List.mem_of_mem_drop hc), .inl ?_, nofun⟩
    rw [← List.length_pos_iff, List.length_take]
    omega

/-- A decimal that is written with a point is read as the same number. -/
theorem value_pointed : d.pointed.toDecimal.value = d.value := by
  unfold pointed
  split
  · next h =>
    obtain ⟨n, hn⟩ := Int.eq_ofNat_of_zero_le h
    have hread : Nat.ofDigitChars 10 (d.digits ++ List.replicate n '0' ++ ['0']) 0 =
        10 * (10 ^ n * d.coefficient) := by
      simp [Nat.ofDigitChars_append, Nat.ofDigitChars_cons, ofDigitChars_digits]
    rw [hn, Int.toNat_natCast]
    show ((Nat.ofDigitChars 10 (d.digits ++ List.replicate n '0' ++ ['0']) 0 : ℕ) : ℚ) *
      10 ^ (-1 : ℤ) = d.coefficient * 10 ^ d.exponent
    rw [hread, hn, zpow_natCast, zpow_neg_one]
    push_cast
    ring
  · next h =>
    obtain ⟨n, hn⟩ := Int.eq_ofNat_of_zero_le (show 0 ≤ -d.exponent by omega)
    have hlength := d.lt_length_padded n
    have hplaces : (d.padded n).length - ((d.padded n).length - n) = n := by omega
    unfold value Numeral.toDecimal
    simp only [hn, Int.toNat_natCast, Option.getD_some, List.take_append_drop,
      ofDigitChars_padded, List.length_drop, hplaces, Option.map_none, Option.getD_none]
    rw [show d.exponent = 0 - (n : ℤ) by omega]

/-! ## Decimals with an exponent -/

/-- The numeral that is written for a decimal with an exponent. -/
def scaled : Numeral :=
  ⟨d.digits.take 1, if (d.digits.drop 1).isEmpty then none else some (d.digits.drop 1),
    some (.ofInt d.leading)⟩

theorem text_scaled : d.scaled.text = d.scientific := by
  obtain ⟨digit, rest, hdigits⟩ := List.exists_cons_of_ne_nil d.digits_ne_nil
  unfold scaled scientific leading
  rw [hdigits]
  cases rest <;> simp [Numeral.text, Numeral.fractionText, Numeral.Exponent.text_ofInt]

theorem mark_mem_scaled : 'e' ∈ d.scaled.text := by
  simp [scaled, Numeral.text, Numeral.Exponent.text_ofInt]

/-- All digits but the first stand behind the point, if there is one. -/
theorem fraction_scaled : d.scaled.fraction.getD [] = d.digits.drop 1 := by
  unfold scaled
  dsimp only
  split
  · next h => exact (List.isEmpty_iff.mp h).symm
  · rfl

theorem wellFormed_scaled : d.scaled.WellFormed where
  whole c hc := d.isDigit_of_mem_digits (List.mem_of_mem_take hc)
  fraction c hc := by
    rw [fraction_scaled] at hc
    exact d.isDigit_of_mem_digits (List.mem_of_mem_drop hc)
  ne_nil := by
    obtain ⟨digit, rest, hdigits⟩ := List.exists_cons_of_ne_nil d.digits_ne_nil
    refine .inl ?_
    unfold scaled
    rw [hdigits]
    exact List.cons_ne_nil _ _
  exponent e he := by
    obtain rfl := Option.some.inj he
    exact Numeral.Exponent.wellFormed_ofInt d.leading

/-- A decimal that is written with an exponent is read again, if its exponent is small. -/
theorem toDecimal_scaled {d : Decimal} (h : d.leading.natAbs < 65536) :
    d.scaled.toDecimal = d := by
  have hexponent : ((d.scaled.exponent.map Numeral.Exponent.value).getD 0 : ℤ) = d.leading :=
    Numeral.Exponent.value_ofInt h
  have hwhole : d.scaled.whole = d.digits.take 1 := rfl
  unfold Numeral.toDecimal
  dsimp only
  rw [fraction_scaled, hexponent, hwhole, List.take_append_drop, ofDigitChars_digits,
    List.length_drop, leading, add_sub_cancel_right]

end Decimal

end Calculator

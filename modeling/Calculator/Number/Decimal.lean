import Calculator.Number.Binary

/-!
# Decimal magnitudes

A decimal is a whole number times a power of ten. Every binary magnitude is one exactly
(`Decimal.ofBinary`), and every decimal is read as the float nearest to it (`Decimal.toFloat`).

`Decimal.shortest` finds the decimal with the fewest digits that is read as a given float, and of
those the one nearest to it. `Decimal.positional` and `Decimal.scientific` write a decimal.

* `Decimal.toFloat_shortestFrom`: what the search finds is read as the float, if the exact
  decimal is.
-/

namespace Calculator

/-- The number `coefficient * 10 ^ exponent`. -/
structure Decimal where
  coefficient : Nat
  exponent : Int
deriving DecidableEq, Repr

namespace Decimal

/-- A binary magnitude as a decimal, exactly: a half is five tenths. -/
def ofBinary (b : Binary) : Decimal :=
  if 0 ≤ b.exponent then ⟨b.significand <<< b.exponent.toNat, 0⟩
  else ⟨b.significand * Nat.pow 5 (-b.exponent).toNat, b.exponent⟩

/-- The same number without zeros at the end of its coefficient. -/
def canonical (d : Decimal) : Decimal :=
  if h : d.coefficient ≠ 0 ∧ d.coefficient % 10 = 0 then
    canonical ⟨d.coefficient / 10, d.exponent + 1⟩
  else d
termination_by d.coefficient
decreasing_by exact Nat.div_lt_self (Nat.pos_of_ne_zero h.1) (by decide)

/-- The float nearest to the decimal, ties to even, or infinity beyond the greatest one. -/
def toFloat (d : Decimal) : Float := .ofModel (.ofScientific d.coefficient d.exponent)

/-- The decimal digits of the coefficient. -/
def digits (d : Decimal) : List Char := Nat.toDigits 10 d.coefficient

/-- The two decimals next to `d` whose exponent is greater by `scale`, the nearer one first; if they
are equally near, the greater one. -/
def neighbours (d : Decimal) (scale : Nat) : Decimal × Decimal :=
  let unit := Nat.pow 10 scale
  let below : Decimal := ⟨d.coefficient / unit, d.exponent + scale⟩
  let above : Decimal := ⟨d.coefficient / unit + 1, d.exponent + scale⟩
  if 2 * (d.coefficient % unit) < unit then (below, above) else (above, below)

/-- The first of the neighbours of `d`, from the exponent greater by `scale` down, that is read as
`x`; `d` itself if there is none. -/
def shortestFrom (x : Float) (d : Decimal) : Nat → Decimal
  | 0 => d
  | scale + 1 =>
    let (first, second) := d.neighbours (scale + 1)
    if first.toFloat = x then first
    else if second.toFloat = x then second
    else shortestFrom x d scale

/-- The decimal with the fewest digits that is read as the float `x`, where `d` is exactly `x`. -/
def shortest (x : Float) (d : Decimal) : Decimal :=
  (shortestFrom x d (d.digits.length - 1)).canonical

/-- A decimal written with a point and no exponent, with at least one digit on each side of the
point. -/
def positional (d : Decimal) : List Char :=
  if 0 ≤ d.exponent then d.digits ++ List.replicate d.exponent.toNat '0' ++ ['.', '0']
  else
    let places := (-d.exponent).toNat
    let padded := List.replicate (places + 1 - d.digits.length) '0' ++ d.digits
    padded.take (padded.length - places) ++ '.' :: padded.drop (padded.length - places)

/-- A decimal written with one digit in front of the point and an exponent, without the point if
there is one digit only. -/
def scientific (d : Decimal) : List Char :=
  let exponent := d.exponent + (d.digits.length - 1 : Nat)
  match d.digits with
  | [] => []
  | digit :: rest =>
    digit :: ((if rest.isEmpty then [] else '.' :: rest) ++ 'e' :: (toString exponent).toList)

theorem toFloat_shortestFrom {x : Float} {d : Decimal} (h : d.toFloat = x) (scale : Nat) :
    (shortestFrom x d scale).toFloat = x := by
  induction scale with
  | zero => exact h
  | succ scale ih =>
    unfold shortestFrom
    dsimp only
    split
    · assumption
    · split
      · assumption
      · exact ih

/-- Digits on both sides of the point, zeros in front of them, zeros behind them. -/
example : String.ofList (positional ⟨125, -2⟩) = "1.25" ∧
    String.ofList (positional ⟨15, -4⟩) = "0.0015" ∧
    String.ofList (positional ⟨9, 1⟩) = "90.0" := by
  decide

/-- A single digit has no point. -/
example : String.ofList (scientific ⟨1, 20⟩) = "1e20" ∧
    String.ofList (scientific ⟨15, -8⟩) = "1.5e-7" := by
  decide

end Decimal

end Calculator

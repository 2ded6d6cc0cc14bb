/-!
# Floats as binary magnitudes

A finite float is a sign and a magnitude, a whole number times a power of two. `Binary.ofFloat?`
takes a float apart and `Binary.toFloat` rounds a magnitude to the nearest float, ties to even.

`truncatedMod` is the exact remainder of a division that is truncated toward zero.
-/

namespace Calculator

/-- The number `significand * 2 ^ exponent`. -/
structure Binary where
  significand : Nat
  exponent : Int
deriving DecidableEq, Repr

namespace Binary

/-- The magnitude of a finite float. -/
def ofFloat? (x : Float) : Option Binary :=
  match x.toModel.unpack with
  | .finite _ significand exponent _ => some ⟨significand, exponent⟩
  | .zero _ => some ⟨0, 0⟩
  | .infinity _ | .notANumber => none

/-- The float nearest to the magnitude, or infinity beyond the greatest one. -/
def toFloat (b : Binary) : Float :=
  .ofModel (.pack (.round .binary64 .positive b.significand b.exponent))

/-- The whole number that the magnitude is, if it is one. -/
def whole? (b : Binary) : Option Nat :=
  if 0 ≤ b.exponent then some (b.significand <<< b.exponent.toNat)
  else
    let unit := Nat.pow 2 (-b.exponent).toNat
    if b.significand % unit = 0 then some (b.significand / unit) else none

/-- The significand that the same magnitude has at an exponent that is not above its own. -/
def significandAt (b : Binary) (exponent : Int) : Nat :=
  b.significand <<< (b.exponent - exponent).toNat

/-- What is left of `a` after as many whole `b` as it holds; `a` itself if `b` is zero. -/
def remainder (a b : Binary) : Binary :=
  let exponent := min a.exponent b.exponent
  ⟨a.significandAt exponent % b.significandAt exponent, exponent⟩

end Binary

/-- Is the sign bit of a float set? It is for `-0.0`. -/
def signBit (x : Float) : Bool := x.toBits ≥ 0x8000000000000000

/-- The remainder of the finite float `x` by the finite float `y` that is not zero, if the quotient
is truncated toward zero. It is exact and has the sign of `x`, also if it is zero. -/
def truncatedMod (x y : Float) : Float :=
  match Binary.ofFloat? x, Binary.ofFloat? y with
  | some a, some b => if signBit x then -(a.remainder b).toFloat else (a.remainder b).toFloat
  | _, _ => x - x

end Calculator

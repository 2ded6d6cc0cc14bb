import Calculator.Number.Decimal

/-!
# Numbers

A number is a 64-bit integer or a float. A value of an expression is always finite, but the type
holds every float, and `Number.toString` shows every one.
-/

namespace Calculator

/-- An integer or a float. -/
inductive Number where
  | int (value : Int64)
  | float (value : Float)
deriving DecidableEq

namespace Number

/-- The float nearest to the number. -/
def toFloat : Number → Float
  | int value => Float.ofInt value.toInt
  | float value => value

/-- Is the number zero? So are both zeros of the floats. -/
def isZero : Number → Bool
  | int value => value == 0
  | float value => value == 0.0

/-- Are two numbers the same kind of number and equal? Floats compare by value, so that `0.0` equals
`-0.0` and NaN equals nothing. -/
def equals : Number → Number → Bool
  | int a, int b => a == b
  | float a, float b => a == b
  | _, _ => false

/-- Is the number an integer or a finite float? -/
def IsFinite : Number → Prop
  | int _ => True
  | float value => value.isFinite = true

/-- Is a magnitude written with an exponent? So are those from `1e16` up, and those other than zero
below a ten-thousandth. -/
def isScientific (magnitude : Float) : Bool :=
  magnitude ≥ 1e16 || (magnitude != 0.0 && magnitude < 1e-4)

/-- The text of a float that is not negative. A whole number that needs no exponent is written in
full, with a zero behind the point. Any other float has the fewest digits that are read as the same
float, with an exponent or a point, so that no float is ever taken for an integer. -/
def magnitudeText (magnitude : Float) : List Char :=
  match Binary.ofFloat? magnitude with
  | none => "inf".toList
  | some b =>
    if isScientific magnitude then (Decimal.shortest magnitude (.ofBinary b)).scientific
    else
      match b.whole? with
      | some n => Decimal.positional ⟨n, 0⟩
      | none => (Decimal.shortest magnitude (.ofBinary b)).positional

/-- The text of a float; that of NaN has no sign. -/
def floatText (x : Float) : String :=
  if x.isNaN then "NaN"
  else if signBit x then String.ofList ('-' :: magnitudeText (-x))
  else String.ofList (magnitudeText x)

/-- The text of a number. -/
def toString : Number → String
  | int value => ToString.toString value.toInt
  | float value => floatText value

instance : ToString Number := ⟨Number.toString⟩

end Number

end Calculator

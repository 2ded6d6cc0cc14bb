import Calculator.EvalError
import Calculator.Number.Basic
import Calculator.Numeral

/-!
# The values of literals

The text of a number node is an integer if it is written as one, without a point or an exponent, and
fits 64 bits; otherwise it is the float nearest to it. A tree need not come from a text, so that a
literal may also have a sign or be one of the words for infinity and NaN. These can be read but
have no finite value.

* `Literal.int?` and `Literal.float?`: the two readings.
* `Literal.value`: the number, or the error at the node's span.
* `finiteAt_cases`: what becomes of a float.
-/

namespace Calculator

/-- The value of the exponent of a numeral. It grows with its digits only while it is below 65536;
any numeral with a greater one and a reasonable number of digits is zero or beyond every float. -/
def Numeral.Exponent.value (e : Numeral.Exponent) : Int :=
  let magnitude : Nat := e.digits.foldl
    (fun value digit => if value < 65536 then 10 * value + (digit.toNat - '0'.toNat) else value) 0
  match e.sign with
  | some .minus => -magnitude
  | _ => magnitude

/-- The number that a numeral stands for. -/
def Numeral.toDecimal (n : Numeral) : Decimal :=
  let fraction := n.fraction.getD []
  let power := (n.exponent.map Exponent.value).getD 0
  ⟨Nat.ofDigitChars 10 (n.whole ++ fraction) 0, power - fraction.length⟩

/-- The 64-bit integer with the value `z`, if there is one. -/
def exactInt? (z : Int) : Option Int64 :=
  if Int64.minValue.toInt ≤ z ∧ z ≤ Int64.maxValue.toInt then some (.ofInt z) else none

/-- A float as the value of the node at `span`, which has to be finite. -/
def finiteAt (span : Span) (x : Float) : Except EvalError Number :=
  if x.isNaN then .error (.notReal span)
  else if x.isInf then .error (.overflow span)
  else .ok (.float x)

/-- A float is NaN or infinite, or it is the value. -/
theorem finiteAt_cases (span : Span) (x : Float) :
    x.isNaN = true ∧ finiteAt span x = .error (.notReal span) ∨
      x.isNaN ≠ true ∧ (x.isInf = true ∧ finiteAt span x = .error (.overflow span) ∨
        x.isInf ≠ true ∧ finiteAt span x = .ok (.float x)) := by
  unfold finiteAt
  split
  · next hnan => exact .inl ⟨hnan, rfl⟩
  · next hnan =>
    refine .inr ⟨hnan, ?_⟩
    split
    · next hinf => exact .inl ⟨hinf, rfl⟩
    · next hinf => exact .inr ⟨hinf, rfl⟩

namespace Literal

/-- Reads digits, with or without a sign, as an integer of 64 bits. -/
def int? (text : List Char) : Option Int64 :=
  let (sign, digits) := Numeral.splitSign text
  if digits.isEmpty || !digits.all Char.isDigit then none
  else
    let magnitude : Int := Nat.ofDigitChars 10 digits 0
    exactInt? (if sign = some .minus then -magnitude else magnitude)

/-- Reads a numeral, or a word for infinity or NaN in any case of letters, as a magnitude. -/
def magnitude? (text : List Char) : Option Float :=
  match Numeral.read? text with
  | some (numeral, rest) => if rest.isEmpty then some numeral.toDecimal.canonical.toFloat else none
  | none =>
    let word := String.ofList (text.map Char.toLower)
    if word = "inf" ∨ word = "infinity" then some (1 / 0)
    else if word = "nan" then some (0 / 0)
    else none

/-- Reads a magnitude, with or without a sign, as a float. -/
def float? (text : List Char) : Option Float :=
  let (sign, magnitude) := Numeral.splitSign text
  (magnitude? magnitude).map fun x => if sign = some .minus then -x else x

/-- Is the text written as a float? -/
def hasFloatMark (text : List Char) : Bool := text.any fun c => c == '.' || c == 'e' || c == 'E'

/-- The value of a literal at `span`. -/
def value (text : String) (span : Span) : Except EvalError Number :=
  match if hasFloatMark text.toList then none else int? text.toList with
  | some n => .ok (.int n)
  | none =>
    match float? text.toList with
    | some x => finiteAt span x
    | none => .error (.invalidLiteral text span)

end Literal

end Calculator

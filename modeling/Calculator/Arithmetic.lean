import Calculator.Literal

/-!
# Arithmetic on numbers

An operation on two integers gives the exact integer if there is one and it fits 64 bits. Otherwise,
and for every division, both operands are taken as floats. A result that is no finite float is an
error at the span of the node.

* `Operation.onInts?`: the results on integers.
* `Operation.onFloats`: the results on floats.
* `Operation.apply`: an operation on two numbers.
* `Operation.onFloats_cases`, `Operation.apply_cases`: what an operation can do.
-/

namespace Calculator

/-- A number with a sign in front. The least integer has no opposite of 64 bits; its opposite is a
float. -/
def Sign.apply : Sign → Number → Number
  | plus, x => x
  | minus, .int n =>
    match exactInt? (-n.toInt) with
    | some opposite => .int opposite
    | none => .float (-(Number.int n).toFloat)
  | minus, .float x => .float (-x)

/-- The product of two integers, if it is one of 64 bits. -/
def mulInt? (a b : Int64) : Option Int64 := exactInt? (a.toInt * b.toInt)

/-- The product of `value` and `base ^ exponent` by repeated squaring, if no step on the way leaves
the integers of 64 bits. Behind the last factor there is no further squaring. -/
def mulPow? (value base : Int64) (exponent : Nat) : Option Int64 :=
  if exponent = 0 then some value
  else if exponent % 2 = 1 then do
    let value ← mulInt? value base
    if exponent = 1 then some value
    else
      let base ← mulInt? base base
      mulPow? value base (exponent / 2)
  else do
    let base ← mulInt? base base
    mulPow? value base (exponent / 2)
termination_by exponent

/-- The power of two integers, if it is one of 64 bits. Beyond the exponents of 32 bits, only zero,
one and minus one have such powers. -/
def powInt? (base exponent : Int64) : Option Int64 :=
  if 0 ≤ exponent.toInt ∧ exponent.toInt.toNat < UInt32.size then
    mulPow? 1 base exponent.toInt.toNat
  else if 0 < exponent then
    if base = 0 ∨ base = 1 then some base
    else if base = -1 then some (if exponent % 2 = 0 then 1 else -1)
    else none
  else none

namespace Operation

/-- The modulus of two integers, with the sign of the right operand unless it is zero. The remainder
of the least integer by minus one is zero, and so is its modulus. -/
def floorModInt (a b : Int64) : Int64 :=
  let rest := a % b
  if rest != 0 && (rest < 0) != (b < 0) then rest + b else rest

/-- The result on two integers, if it is an integer of 64 bits. A quotient never counts as one. -/
def onInts? (operation : Operation) (a b : Int64) : Option Int64 :=
  match operation with
  | add => exactInt? (a.toInt + b.toInt)
  | sub => exactInt? (a.toInt - b.toInt)
  | mul => mulInt? a b
  | div => none
  | mod => some (floorModInt a b)
  | pow => powInt? a b

/-- The modulus of two floats, with the sign of the right operand unless it is zero. -/
def floorMod (x y : Float) : Float :=
  let rest := truncatedMod x y
  if rest != 0.0 && (rest < 0.0) != (y < 0.0) then rest + y else rest

/-- The result on two floats. -/
def onFloats (operation : Operation) (x y : Float) (span : Span) : Except EvalError Number :=
  match operation with
  | add => finiteAt span (x + y)
  | sub => finiteAt span (x - y)
  | mul => finiteAt span (x * y)
  | div => finiteAt span (x / y)
  | mod => finiteAt span (floorMod x y)
  | pow => if x == 0.0 && y < 0.0 then .error (.divisionByZero span) else finiteAt span (x.pow y)

/-- On floats, a power of zero with a negative exponent divides by zero; all else gives a float. -/
theorem onFloats_cases (operation : Operation) (x y : Float) (span : Span) :
    (operation = .pow ∧ (x == 0.0) = true ∧ y < 0.0) ∧
        operation.onFloats x y span = .error (.divisionByZero span) ∨
      ∃ z, operation.onFloats x y span = finiteAt span z := by
  cases operation with
  | pow =>
    unfold onFloats
    dsimp only
    split
    · next hzero =>
      rw [Bool.and_eq_true, decide_eq_true_iff] at hzero
      exact .inl ⟨⟨rfl, hzero⟩, rfl⟩
    · exact .inr ⟨_, rfl⟩
  | _ => exact .inr ⟨_, rfl⟩

/-- Is the operation a division, for which the right operand may not be zero? -/
def divides : Operation → Bool
  | div | mod => true
  | _ => false

/-- Applies an operation to two finite numbers, as the value of the node at `span`. -/
def apply (operation : Operation) (left right : Number) (span : Span) : Except EvalError Number :=
  if operation.divides && right.isZero then .error (.divisionByZero span)
  else
    match left, right with
    | .int a, .int b =>
      match operation.onInts? a b with
      | some n => .ok (.int n)
      | none => operation.onFloats left.toFloat right.toFloat span
    | _, _ => operation.onFloats left.toFloat right.toFloat span

/-- What an operation can do: divide by zero, give an exact integer, or compute with floats. -/
theorem apply_cases (operation : Operation) (left right : Number) (span : Span) :
    (operation.divides = true ∧ right.isZero = true) ∧
        operation.apply left right span = .error (.divisionByZero span) ∨
      (operation.divides = true → right.isZero = false) ∧
        ((∃ a b n, left = .int a ∧ right = .int b ∧ operation.onInts? a b = some n ∧
          operation.apply left right span = .ok (.int n)) ∨
        operation.apply left right span =
          operation.onFloats left.toFloat right.toFloat span) := by
  unfold apply
  split
  · next hzero => exact .inl ⟨Bool.and_eq_true_iff.mp hzero, rfl⟩
  · next hzero =>
    refine .inr ⟨fun hdivides => ?_, ?_⟩
    · rw [hdivides, Bool.true_and] at hzero
      exact Bool.eq_false_iff.mpr hzero
    · split
      · next a b =>
        cases hn : operation.onInts? a b with
        | some n => exact .inl ⟨a, b, n, rfl, rfl, hn, rfl⟩
        | none => exact .inr rfl
      · exact .inr rfl

end Operation

end Calculator

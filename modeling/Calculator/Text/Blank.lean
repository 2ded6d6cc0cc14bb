/-!
# Blank characters

The characters with the Unicode property `White_Space`: 25 of them, in ten ranges. A blank may
stand between any two tokens.
-/

namespace Calculator.Text

/-- The code points with the property `White_Space`, as ranges with both ends included. -/
def blankRanges : List (Nat × Nat) :=
  [(0x0009, 0x000D), (0x0020, 0x0020), (0x0085, 0x0085), (0x00A0, 0x00A0), (0x1680, 0x1680),
   (0x2000, 0x200A), (0x2028, 0x2029), (0x202F, 0x202F), (0x205F, 0x205F), (0x3000, 0x3000)]

/-- Is `c` a blank character? -/
def isBlank (c : Char) : Bool :=
  blankRanges.any fun (low, high) => low ≤ c.toNat && c.toNat ≤ high

/-- The property holds 25 characters. -/
example : (blankRanges.map fun r => r.2 + 1 - r.1).sum = 25 := by decide

/-- A blank outside ASCII counts; a zero-width space does not. -/
example : isBlank '\u3000' = true ∧ isBlank '\u200b' = false := by decide

end Calculator.Text

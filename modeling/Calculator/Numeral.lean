import Calculator.Operator

/-!
# Numerals

An unsigned decimal numeral: digits, a point with digits on at least one side, or both, and then an
exponent, which counts only if it has a digit. `Numeral.read?` splits the longest numeral off the
front of a text and keeps its parts, so that a scan and an evaluation agree on what a numeral is.

* `Numeral.text_read?`: the numeral read and the rest are the text.
* `Numeral.digit_of_read?`: a numeral read has a digit on one side of the point.
-/

namespace Calculator

/-- The power of ten at the end of a numeral. -/
structure Numeral.Exponent where
  /-- The letter `e` or `E`. -/
  mark : Char
  sign : Option Sign
  digits : List Char
deriving DecidableEq, Repr

/-- The parts of a decimal numeral. -/
structure Numeral where
  /-- The digits in front of the point. -/
  whole : List Char
  /-- The digits behind the point; `none` where there is no point. -/
  fraction : Option (List Char)
  exponent : Option Numeral.Exponent
deriving DecidableEq, Repr

namespace Numeral

/-- Splits the digits off the front of a text. -/
def splitDigits (cs : List Char) : List Char × List Char :=
  (cs.takeWhile Char.isDigit, cs.dropWhile Char.isDigit)

@[simp] theorem splitDigits_append (cs : List Char) :
    (splitDigits cs).1 ++ (splitDigits cs).2 = cs :=
  List.takeWhile_append_dropWhile

theorem isDigit_of_mem_splitDigits {cs : List Char} {c : Char} (h : c ∈ (splitDigits cs).1) :
    c.isDigit = true :=
  List.all_eq_true.mp List.all_takeWhile c h

/-- Splits a plus or a minus off the front of a text. -/
def splitSign : List Char → Option Sign × List Char
  | '+' :: cs => (some .plus, cs)
  | '-' :: cs => (some .minus, cs)
  | cs => (none, cs)

/-- A sign as written, or nothing. -/
def signText (sign : Option Sign) : List Char := (sign.map Sign.symbol).getD "" |>.toList

@[simp] theorem splitSign_append (cs : List Char) :
    signText (splitSign cs).1 ++ (splitSign cs).2 = cs := by
  fun_cases splitSign cs <;> simp [signText, Sign.symbol]

namespace Exponent

/-- The exponent as written. -/
def text (e : Exponent) : List Char := e.mark :: (signText e.sign ++ e.digits)

/-- Splits an exponent off the front of a text; without a digit there is none. -/
def split : List Char → Option Exponent × List Char
  | [] => (none, [])
  | c :: cs =>
    if c = 'e' ∨ c = 'E' then
      let signed := splitSign cs
      let tail := splitDigits signed.2
      if tail.1.isEmpty then (none, c :: cs) else (some ⟨c, signed.1, tail.1⟩, tail.2)
    else (none, c :: cs)

theorem split_append (cs : List Char) :
    (((split cs).1.map text).getD []) ++ (split cs).2 = cs := by
  fun_cases split cs with
  | case1 => rfl
  | case2 | case4 => simp
  | case3 c cs hc signed tail hd => simp [text, List.append_assoc, signed, tail]

end Exponent

/-- Splits a point and the digits behind it off the front of a text. -/
def splitFraction : List Char → Option (List Char) × List Char
  | '.' :: cs => (some (splitDigits cs).1, (splitDigits cs).2)
  | cs => (none, cs)

/-- A fraction as written, or nothing. -/
def fractionText (fraction : Option (List Char)) : List Char :=
  (fraction.map ('.' :: ·)).getD []

@[simp] theorem splitFraction_append (cs : List Char) :
    fractionText (splitFraction cs).1 ++ (splitFraction cs).2 = cs := by
  fun_cases splitFraction cs <;> simp [fractionText]

/-- The numeral as written. -/
def text (n : Numeral) : List Char :=
  n.whole ++ fractionText n.fraction ++ (n.exponent.map Exponent.text).getD []

/-- Splits the longest numeral off the front of a text. There is none unless the text starts with
a digit, or with a point and a digit. -/
def read? (cs : List Char) : Option (Numeral × List Char) :=
  let whole := splitDigits cs
  let fraction := splitFraction whole.2
  if whole.1.isEmpty && (fraction.1.getD []).isEmpty then none
  else
    let exponent := Exponent.split fraction.2
    some (⟨whole.1, fraction.1, exponent.1⟩, exponent.2)

theorem text_read? {cs rest : List Char} {n : Numeral} (h : read? cs = some (n, rest)) :
    n.text ++ rest = cs := by
  simp only [read?] at h
  split at h
  · simp at h
  · obtain ⟨rfl, rfl⟩ : _ ∧ _ := by simpa using h
    simp [text, List.append_assoc, Exponent.split_append]

/-- A numeral has a digit on one side of the point. -/
theorem digit_of_read? {cs rest : List Char} {n : Numeral} (h : read? cs = some (n, rest)) :
    n.whole ≠ [] ∨ n.fraction.getD [] ≠ [] := by
  simp only [read?] at h
  split at h
  · simp at h
  · next hd =>
    obtain ⟨rfl, rfl⟩ : _ ∧ _ := by simpa using h
    simpa [Decidable.imp_iff_not_or] using hd

theorem text_ne_nil_of_read? {cs rest : List Char} {n : Numeral} (h : read? cs = some (n, rest)) :
    n.text ≠ [] := by
  rcases digit_of_read? h with hw | hf
  · simp [text, hw]
  · have : fractionText n.fraction ≠ [] := by
      cases hx : n.fraction <;> simp_all [fractionText]
    simp [text, this]

/-- The exponent counts only if a digit follows its mark. -/
example : (read? "2e".toList).map (fun r => (r.1.text, r.2)) = some (['2'], ['e']) := by decide

/-- A point alone is no numeral. -/
example : read? ['.'] = none := by decide

end Numeral

end Calculator

import Calculator.Proofs.DecimalNumerals
import Calculator.Proofs.FiniteValues
import Calculator.Proofs.RoundTrip

/-!
# Printed floats

The text of a finite float is one literal, behind a minus if the sign bit is set. The literal is
marked as a float by a point or an exponent in each of the three forms in which floats are written,
and the float nearest to it is the one that was printed. So the text evaluates to the same float,
zeros with their signs included.

* `Literal.value_of_wellFormed`: the value of a numeral that is marked as a float.
* `Number.exists_numeral_magnitudeText`: what is written for a float without a sign.
* `Scan.ofText_signedLiteral`, `Limits.calculate_signedLiteral`: the tokens and the value of a
  literal behind a minus or without one.
* `Limits.calculate_toString_float`: the text of a finite float and what it evaluates to.
-/

namespace Calculator

open Floats

/-! ## The value of a numeral -/

/-- A numeral that is marked as a float has the float nearest to it as its value. -/
theorem Literal.value_of_wellFormed {n : Numeral} (h : n.WellFormed)
    (hmark : '.' ∈ n.text ∨ 'e' ∈ n.text) (hfinite : n.toDecimal.toFloat.isFinite = true)
    (span : Span) : value (String.ofList n.text) span = .ok (.float n.toDecimal.toFloat) := by
  have hread : Numeral.read? n.text = some (n, []) := by
    have hread := Numeral.read?_text_append h Numeral.ends_nil
    rwa [List.append_nil] at hread
  have hsign : Numeral.splitSign n.text = (none, n.text) := by
    have hsign := (Numeral.isLiteral_of_read? hread).splitSign
    rwa [String.toList_ofList] at hsign
  have hfloatMark : hasFloatMark n.text = true := by
    rcases hmark with hpoint | he
    · exact List.any_eq_true.mpr ⟨'.', hpoint, rfl⟩
    · exact List.any_eq_true.mpr ⟨'e', he, rfl⟩
  have hfloat : float? n.text = some n.toDecimal.toFloat := by
    simp [float?, hsign, magnitude?, hread, Decimal.toFloat_canonical]
  unfold value
  rw [String.toList_ofList, if_pos hfloatMark, hfloat]
  exact finiteAt_of_isFinite hfinite

/-! ## Magnitudes -/

namespace Number

variable {x : Float}

/-- Zero is written without an exponent. -/
theorem ne_zero_of_isScientific (h : isScientific x = true) : x ≠ 0.0 := by
  rintro rfl
  exact absurd h (by decide +kernel)

/-- What is written for a float without a sign is a numeral that is read as this float and marked as
a float. -/
theorem exists_numeral_magnitudeText (hfinite : x.isFinite = true) (hsign : signBit x = false) :
    ∃ n : Numeral, n.WellFormed ∧ n.text = magnitudeText x ∧ ('.' ∈ n.text ∨ 'e' ∈ n.text) ∧
      n.toDecimal.toFloat = x := by
  obtain ⟨b, hb⟩ := Binary.exists_of_isFinite hfinite
  have hshortest := Decimal.toFloat_shortest hfinite hsign hb
  have hpointed (d : Decimal) (hd : d.toFloat = x) : d.pointed.toDecimal.toFloat = x := by
    rw [Decimal.toFloat_eq, d.value_pointed, ← Decimal.toFloat_eq, hd]
  unfold magnitudeText
  rw [hb]
  dsimp only
  split
  · next hscientific =>
    obtain ⟨hlow, hhigh⟩ :=
      Decimal.leading_bounds hfinite (ne_zero_of_isScientific hscientific) hshortest
    refine ⟨_, Decimal.wellFormed_scaled _, Decimal.text_scaled _,
      .inr (Decimal.mark_mem_scaled _), ?_⟩
    rw [Decimal.toDecimal_scaled (by omega), hshortest]
  · split
    · next n hn =>
      refine ⟨_, Decimal.wellFormed_pointed _, Decimal.text_pointed _,
        .inl (Decimal.point_mem_pointed _), hpointed _ ?_⟩
      exact Decimal.toFloat_of_value_eq hfinite hsign hb (Decimal.value_of_whole? hn)
    · exact ⟨_, Decimal.wellFormed_pointed _, Decimal.text_pointed _,
        .inl (Decimal.point_mem_pointed _), hpointed _ hshortest⟩

/-- The text of a float without a sign is a literal, and its value is the float. -/
theorem literal_magnitudeText (hfinite : x.isFinite = true) (hsign : signBit x = false) :
    Numeral.IsLiteral (String.ofList (magnitudeText x)) ∧
      ('.' ∈ magnitudeText x ∨ 'e' ∈ magnitudeText x) ∧
      Literal.value (String.ofList (magnitudeText x)) (.point 0) = .ok (.float x) := by
  obtain ⟨n, hwell, htext, hmark, rfl⟩ := exists_numeral_magnitudeText hfinite hsign
  have hread := Numeral.read?_text_append hwell Numeral.ends_nil
  rw [← htext]
  exact ⟨Numeral.isLiteral_of_read? hread, hmark,
    Literal.value_of_wellFormed hwell hmark hfinite _⟩

end Number

/-! ## Literals behind a sign -/

/-- A literal, with or without a minus in front. -/
def Expr.signedLiteral (negative : Bool) (literal : String) : Expr :=
  let magnitude : Expr := .number literal (.point 0)
  if negative then .signed .minus magnitude (.point 0) else magnitude

section SignedLiteral

variable {literal : String} (negative : Bool)

theorem Expr.print_signedLiteral :
    (signedLiteral negative literal).print = (if negative then "-" else "") ++ literal := by
  rw [print_eq]
  cases negative with
  | false =>
    show String.ofList literal.toList = "" ++ literal
    rw [String.ofList_toList, String.empty_append]
  | true =>
    show String.ofList ("-".toList ++ literal.toList) = "-" ++ literal
    rw [String.ofList_append, String.ofList_toList, String.ofList_toList]

variable (h : Numeral.IsLiteral literal)
include h

/-- A literal behind a sign is scanned as the sign and one number. -/
theorem Scan.ofText_signedLiteral :
    let scan := ofText ((if negative then "-" else "") ++ literal)
    scan.tokens.map (fun token => (token.kind, token.text)) =
      (if negative then [(.minus, "-")] else []) ++ [(.number, literal)] ∧ scan.fault = none := by
  intro scan
  have hnumber := Token.read?_literal h Numeral.ends_nil
  rw [List.append_nil] at hnumber
  have hliteral (offset : Nat) : ∃ span stop,
      Reads offset literal.toList [⟨.number, literal, span⟩] stop [] := by
    have hreads : Reads offset literal.toList _ _ [] := .token hnumber .done
    rw [String.ofList_toList] at hreads
    exact ⟨_, _, hreads⟩
  cases negative with
  | false =>
    obtain ⟨span, stop, hreads⟩ := hliteral 0
    have hempty : scan = ofText literal := congrArg ofText String.empty_append
    obtain ⟨htokens, hfault⟩ := ofText_of_reads hreads
    rw [hempty, htokens]
    exact ⟨rfl, hfault⟩
  | true =>
    have hminus : Token.read? ("-" ++ literal).toList = some (.minus, ['-'], literal.toList) := by
      rw [String.toList_append]
      rfl
    obtain ⟨span, stop, hreads⟩ := hliteral (0 + Text.width ['-'])
    obtain ⟨htokens, hfault⟩ := ofText_of_reads (.token hminus hreads)
    rw [show scan = ofText ("-" ++ literal) from rfl, htokens]
    exact ⟨rfl, hfault⟩

/-- A literal behind a sign evaluates to its value behind the sign. -/
theorem Limits.calculate_signedLiteral {n : Number}
    (hvalue : Literal.value literal (.point 0) = .ok n) :
    ({} : Limits).calculate ((if negative then "-" else "") ++ literal) =
      .ok (if negative then Sign.minus.apply n else n) := by
  have hwell : (Expr.signedLiteral negative literal).WellFormed := by
    cases negative <;> exact h
  have hlevels : (Expr.signedLiteral negative literal).printNeed 0 ≤ ({} : Limits).nesting := by
    cases negative <;> exact Nat.le_of_ble_eq_true rfl
  obtain ⟨tree, hparse, hbare⟩ := (parse_print_iff hwell).mpr hlevels
  rw [Expr.print_signedLiteral] at hparse
  have htree : ({} : Limits).evaluate tree = .ok (if negative then Sign.minus.apply n else n) := by
    refine Expr.eval_eq_ok_of_bare_eq hbare.symm ?_
    cases negative with
    | false => exact hvalue
    | true =>
      show (Literal.value literal (.point 0)).map Sign.minus.apply = _
      rw [hvalue]
      rfl
  unfold calculate
  rw [hparse]
  show (({} : Limits).evaluate tree).mapError Failure.undefined = _
  rw [htree]
  rfl

end SignedLiteral

/-! ## Floats -/

namespace Number

variable {x : Float}

/-- The text of a finite float is a literal that is marked as a float, behind a minus if the sign
bit is set. The value of the literal is the float without its sign. -/
theorem exists_literal_floatText (h : x.isFinite = true) :
    ∃ literal : String, Numeral.IsLiteral literal ∧
      ('.' ∈ literal.toList ∨ 'e' ∈ literal.toList) ∧
      floatText x = (if signBit x then "-" else "") ++ literal ∧
      Literal.value literal (.point 0) = .ok (.float (if signBit x then -x else x)) := by
  unfold floatText
  rw [if_neg (by rw [isNaN_eq_false h]; nofun)]
  cases hsign : signBit x with
  | false =>
    obtain ⟨hliteral, hmark, hvalue⟩ := literal_magnitudeText h hsign
    refine ⟨_, hliteral, by rwa [String.toList_ofList], ?_, hvalue⟩
    exact String.empty_append.symm
  | true =>
    obtain ⟨hliteral, hmark, hvalue⟩ :=
      literal_magnitudeText (isFinite_neg h) (signBit_neg h hsign)
    refine ⟨_, hliteral, by rwa [String.toList_ofList], ?_, hvalue⟩
    rw [← List.singleton_append, String.ofList_append]
    rfl

end Number

/-- The text of a finite float is one literal with a point or an exponent, behind a minus if the
sign bit is set. It evaluates to the float that was printed, which is the same to the last bit. -/
theorem Limits.calculate_toString_float (x : Float) (h : x.isFinite = true) :
    (∃ literal : String, ('.' ∈ literal.toList ∨ 'e' ∈ literal.toList) ∧
      toString (Number.float x) = (if signBit x then "-" else "") ++ literal ∧
      let scan := Scan.ofText (toString (Number.float x))
      scan.tokens.map (fun token => (token.kind, token.text)) =
        (if signBit x then [(.minus, "-")] else []) ++ [(.number, literal)] ∧
      scan.fault = none) ∧
    ({} : Limits).calculate (toString (Number.float x)) = .ok (.float x) := by
  obtain ⟨literal, hliteral, hmark, htext, hvalue⟩ := Number.exists_literal_floatText h
  rw [show toString (Number.float x) = Number.floatText x from rfl, htext]
  refine ⟨⟨literal, hmark, rfl, Scan.ofText_signedLiteral _ hliteral⟩, ?_⟩
  rw [calculate_signedLiteral _ hliteral hvalue]
  split
  · rw [Sign.apply, neg_neg_eq]
  · rfl

/-- The negative zero, and the negative float next to it, whose text has an exponent. -/
theorem Limits.calculate_toString_float_negative :
    ((-0.0 : Float).isFinite = true ∧
      ({} : Limits).calculate "-0.0" = .ok (.float (-0.0))) ∧
    ((-5e-324 : Float).isFinite = true ∧
      ({} : Limits).calculate "-5e-324" = .ok (.float (-5e-324))) := by
  have hzero : (-0.0 : Float).isFinite = true := by decide
  have hleast : (-5e-324 : Float).isFinite = true := by decide +kernel
  have hzeroText : toString (Number.float (-0.0)) = "-0.0" := by decide +kernel
  have hleastText : toString (Number.float (-5e-324)) = "-5e-324" := by decide +kernel
  refine ⟨⟨hzero, ?_⟩, hleast, ?_⟩
  · rw [← hzeroText]
    exact (calculate_toString_float (-0.0) hzero).2
  · rw [← hleastText]
    exact (calculate_toString_float (-5e-324) hleast).2

end Calculator

import Calculator.Numeral

/-!
# Numerals in front of other text

What `Numeral.read?` takes is fixed by the parts of the numeral and by the first character behind
it. So a numeral that was read can be read again, alone or in front of any text that does not go on
with it.

* `Numeral.WellFormed`: the parts that a numeral read has.
* `Numeral.read?_text_append`: a well-formed numeral is read in front of a text that ends it.
* `Numeral.IsLiteral`: a text is one numeral and nothing else.
-/

namespace Calculator.Numeral

/-- The text goes on with nothing that would make a numeral before it longer. -/
def Ends (cs : List Char) : Prop :=
  ∀ c ∈ cs.head?, c.isDigit = false ∧ c ≠ '.' ∧ c ≠ 'e' ∧ c ≠ 'E'

/-- The parts of an exponent that counts. -/
structure Exponent.WellFormed (e : Exponent) : Prop where
  mark : e.mark = 'e' ∨ e.mark = 'E'
  digits : ∀ c ∈ e.digits, c.isDigit = true
  ne_nil : e.digits ≠ []

/-- The parts of a numeral: digits on one side of the point at least, and an exponent that
counts. -/
structure WellFormed (n : Numeral) : Prop where
  whole : ∀ c ∈ n.whole, c.isDigit = true
  fraction : ∀ c ∈ n.fraction.getD [], c.isDigit = true
  ne_nil : n.whole ≠ [] ∨ n.fraction.getD [] ≠ []
  exponent : ∀ e ∈ n.exponent, e.WellFormed

/-- The text is one numeral and nothing else. -/
def IsLiteral (text : String) : Prop := ∃ n : Numeral, read? text.toList = some (n, [])

instance (text : String) : Decidable (IsLiteral text) :=
  match h : read? text.toList with
  | some (n, []) => .isTrue ⟨n, h⟩
  | some (_, _ :: _) => .isFalse fun ⟨_, h'⟩ => by simp [h] at h'
  | none => .isFalse fun ⟨_, h'⟩ => by simp [h] at h'

theorem ends_nil : Ends [] := nofun

theorem ends_cons {c : Char} {cs : List Char}
    (h : c.isDigit = false ∧ c ≠ '.' ∧ c ≠ 'e' ∧ c ≠ 'E') : Ends (c :: cs) := by
  intro c' hc
  obtain rfl : c = c' := Option.some.inj hc
  exact h

/-- Digits in front of a text that does not start with one are split off. -/
theorem splitDigits_append_of {digits rest : List Char} (h : ∀ c ∈ digits, c.isDigit = true)
    (hrest : ∀ c ∈ rest.head?, c.isDigit = false) :
    splitDigits (digits ++ rest) = (digits, rest) := by
  have htake : rest.takeWhile Char.isDigit = [] := by
    cases rest with
    | nil => rfl
    | cons c cs => rw [List.takeWhile_cons, hrest c rfl]; rfl
  have hdrop : rest.dropWhile Char.isDigit = rest := by
    cases rest with
    | nil => rfl
    | cons c cs => rw [List.dropWhile_cons, hrest c rfl]; rfl
  rw [splitDigits, List.takeWhile_append_of_pos h, List.dropWhile_append_of_pos h, htake, hdrop,
    List.append_nil]

theorem splitSign_of_ne {c : Char} {cs : List Char} (hplus : c ≠ '+') (hminus : c ≠ '-') :
    splitSign (c :: cs) = (none, c :: cs) := by
  unfold splitSign
  split
  · next heq => exact absurd (List.cons.inj heq).1 hplus
  · next heq => exact absurd (List.cons.inj heq).1 hminus
  · rfl

theorem splitSign_append_of {sign : Option Sign} {cs : List Char}
    (h : ∀ c ∈ cs.head?, c.isDigit = true) : splitSign (signText sign ++ cs) = (sign, cs) := by
  match sign, cs with
  | some .plus, _ => rfl
  | some .minus, _ => rfl
  | none, [] => rfl
  | none, c :: cs =>
    have hdigit := h c rfl
    have hplus : c ≠ '+' := by rintro rfl; exact absurd hdigit (by decide)
    have hminus : c ≠ '-' := by rintro rfl; exact absurd hdigit (by decide)
    exact splitSign_of_ne hplus hminus

theorem Exponent.split_text_append {e : Exponent} {rest : List Char} (h : e.WellFormed)
    (hrest : ∀ c ∈ rest.head?, c.isDigit = false) : split (e.text ++ rest) = (some e, rest) := by
  have hmark := h.mark
  have hhead : ∀ c ∈ (e.digits ++ rest).head?, c.isDigit = true := by
    obtain ⟨c, cs, hd⟩ := List.exists_cons_of_ne_nil h.ne_nil
    intro c' hc'
    rw [hd, List.cons_append, List.head?_cons, Option.mem_some_iff] at hc'
    exact h.digits c' (by rw [hd, ← hc']; exact List.mem_cons_self)
  have hdigits := splitDigits_append_of h.digits hrest
  show split (e.mark :: ((signText e.sign ++ e.digits) ++ rest)) = _
  rw [List.append_assoc]
  rw [split, if_pos hmark, splitSign_append_of hhead]
  simp only [hdigits]
  rw [if_neg (by simpa using h.ne_nil)]

theorem Exponent.split_of_ends {rest : List Char} (hrest : Ends rest) :
    split rest = (none, rest) := by
  cases rest with
  | nil => rfl
  | cons c cs =>
    obtain ⟨-, -, he, hE⟩ := hrest c rfl
    rw [split, if_neg fun h => h.elim he hE]

theorem splitFraction_of_ne {cs : List Char} (h : ∀ c ∈ cs.head?, c ≠ '.') :
    splitFraction cs = (none, cs) := by
  unfold splitFraction
  split
  · exact absurd rfl (h '.' rfl)
  · rfl

theorem splitFraction_text_append {fraction : Option (List Char)} {rest : List Char}
    (h : ∀ c ∈ fraction.getD [], c.isDigit = true)
    (hrest : ∀ c ∈ rest.head?, c.isDigit = false ∧ c ≠ '.') :
    splitFraction (fractionText fraction ++ rest) = (fraction, rest) := by
  cases fraction with
  | none => exact splitFraction_of_ne fun c hc => (hrest c hc).2
  | some digits =>
    have hdigits : splitDigits (digits ++ rest) = (digits, rest) :=
      splitDigits_append_of h fun c hc => (hrest c hc).1
    show (some (splitDigits (digits ++ rest)).1, (splitDigits (digits ++ rest)).2) = _
    rw [hdigits]

/-- An exponent, or what stands behind a numeral without one, starts with neither a digit nor a
point. -/
theorem head_exponentText_append {exponent : Option Exponent} {rest : List Char}
    (h : ∀ e ∈ exponent, e.WellFormed) (hrest : Ends rest) :
    ∀ c ∈ ((exponent.map Exponent.text).getD [] ++ rest).head?, c.isDigit = false ∧ c ≠ '.' := by
  intro c hc
  cases exponent with
  | none => exact ⟨(hrest c hc).1, (hrest c hc).2.1⟩
  | some e =>
    obtain rfl : e.mark = c := Option.some.inj hc
    rcases (h e rfl).mark with hm | hm <;> rw [hm] <;> decide

/-- A well-formed numeral is read in front of any text that ends it. -/
theorem read?_text_append {n : Numeral} {rest : List Char} (h : n.WellFormed) (hrest : Ends rest) :
    read? (n.text ++ rest) = some (n, rest) := by
  have htail := head_exponentText_append h.exponent hrest
  have hexponent : Exponent.split ((n.exponent.map Exponent.text).getD [] ++ rest) =
      (n.exponent, rest) := by
    cases hx : n.exponent with
    | none => exact Exponent.split_of_ends hrest
    | some e => exact Exponent.split_text_append (h.exponent e hx) fun c hc => (hrest c hc).1
  have hfraction := splitFraction_text_append h.fraction htail
  have hwhole : splitDigits (n.text ++ rest) = (n.whole,
      fractionText n.fraction ++ ((n.exponent.map Exponent.text).getD [] ++ rest)) := by
    rw [text, List.append_assoc, List.append_assoc]
    refine splitDigits_append_of h.whole fun c hc => ?_
    cases hx : n.fraction with
    | none => rw [hx] at hc; exact (htail c hc).1
    | some digits =>
      rw [hx] at hc
      obtain rfl : '.' = c := Option.some.inj hc
      decide
  have hsome : (n.whole.isEmpty && (n.fraction.getD []).isEmpty) = false := by
    rcases h.ne_nil with hn | hn
    · rw [List.isEmpty_eq_false_iff.mpr hn, Bool.false_and]
    · rw [List.isEmpty_eq_false_iff.mpr hn, Bool.and_false]
  unfold read?
  simp only [hwhole, hfraction, hsome, hexponent, Bool.false_eq_true, ↓reduceIte]

theorem Exponent.wellFormed_of_split {cs : List Char} {e : Exponent} (h : (split cs).1 = some e) :
    e.WellFormed := by
  fun_cases split cs with
  | case1 => cases h
  | case2 c cs hc signed tail hd => simp [split, hc, signed, tail, hd] at h
  | case3 c cs hc signed tail hd =>
    obtain rfl : (⟨c, signed.1, tail.1⟩ : Exponent) = e := by
      simpa [split, hc, signed, tail, hd] using h
    exact ⟨hc, fun c' hc' => isDigit_of_mem_splitDigits hc', by simpa using hd⟩
  | case4 c cs hc => simp [split, hc] at h

theorem isDigit_of_mem_splitFraction {cs : List Char} :
    ∀ c ∈ (splitFraction cs).1.getD [], c.isDigit = true := by
  intro c hc
  unfold splitFraction at hc
  split at hc
  · exact isDigit_of_mem_splitDigits hc
  · nomatch hc

/-- What is read is a numeral. -/
theorem wellFormed_of_read? {cs rest : List Char} {n : Numeral} (h : read? cs = some (n, rest)) :
    n.WellFormed := by
  have hne := digit_of_read? h
  unfold read? at h
  dsimp only at h
  split at h
  · nomatch h
  · simp only [Option.some.injEq, Prod.mk.injEq] at h
    obtain ⟨rfl, -⟩ := h
    exact ⟨fun c hc => isDigit_of_mem_splitDigits hc, isDigit_of_mem_splitFraction, hne,
      fun e he => Exponent.wellFormed_of_split he⟩

/-- A numeral starts with a digit or with a point. -/
theorem WellFormed.head {n : Numeral} (h : n.WellFormed) :
    ∃ c cs, n.text = c :: cs ∧ (c.isDigit = true ∨ c = '.') := by
  cases hw : n.whole with
  | cons c cs =>
    refine ⟨c, _, by rw [text, hw]; rfl, .inl (h.whole c ?_)⟩
    rw [hw]
    exact List.mem_cons_self
  | nil =>
    cases hf : n.fraction with
    | none => exact absurd h.ne_nil (by simp [hw, hf])
    | some digits => exact ⟨'.', _, by rw [text, hw, hf]; rfl, .inr rfl⟩

/-- The text of a numeral that was read is a literal. -/
theorem isLiteral_of_read? {cs rest : List Char} {n : Numeral} (h : read? cs = some (n, rest)) :
    IsLiteral (String.ofList n.text) := by
  refine ⟨n, ?_⟩
  have hread := read?_text_append (wellFormed_of_read? h) ends_nil
  rwa [List.append_nil, ← String.toList_ofList (l := n.text)] at hread

/-- A literal has no sign. -/
theorem IsLiteral.splitSign {text : String} (h : IsLiteral text) :
    Numeral.splitSign text.toList = (none, text.toList) := by
  obtain ⟨n, hn⟩ := h
  obtain ⟨c, cs, htext, hc⟩ := (wellFormed_of_read? hn).head
  rw [← text_read? hn, List.append_nil, htext]
  have hplus : c ≠ '+' := by rintro rfl; exact absurd hc (by decide)
  have hminus : c ≠ '-' := by rintro rfl; exact absurd hc (by decide)
  exact splitSign_of_ne hplus hminus

/-- A literal is read in front of any text that ends it. -/
theorem IsLiteral.read?_append {text : String} {rest : List Char} (h : IsLiteral text)
    (hrest : Ends rest) : ∃ n : Numeral, n.text = text.toList ∧
      read? (text.toList ++ rest) = some (n, rest) := by
  obtain ⟨n, hn⟩ := h
  have htext : n.text = text.toList := by rw [← text_read? hn, List.append_nil]
  exact ⟨n, htext, by rw [← htext]; exact read?_text_append (wellFormed_of_read? hn) hrest⟩

end Calculator.Numeral

import Calculator.Proofs.Acceptance
import Calculator.Proofs.Truncation
import Mathlib.Control.Monad.Basic

/-!
# The alphabet of expressions

A text is made of digits, points, exponent marks, symbols and blanks. A text with any other
character in it has a fault, and the fault hides all other reports. The fault need not be that
character: it is the first character that is no blank and with which no token starts, such as the
mark of an exponent without digits.

* `Token.Starts`: the characters with which a token starts; `Token.read?_eq_none_iff`: no token is
  read off a text that does not start so.
* `Scan.Reads.mem_char`: what is read of a text are blanks and the texts of tokens.
* `Limits.closed_alphabet`: what is outside the alphabet is never accepted.
-/

namespace Calculator

open Text

namespace Text

/-- The characters of the tokens that have one spelling each. -/
def symbols : List Char := ['+', '-', '*', '/', '%', '^', '(', ')']

/-- A character that may stand in an expression. -/
def InAlphabet (c : Char) : Prop :=
  c.isDigit = true ∨ c = '.' ∨ c = 'e' ∨ c = 'E' ∨ c ∈ symbols ∨ isBlank c = true

instance (c : Char) : Decidable (InAlphabet c) := inferInstanceAs (Decidable (_ ∨ _))

/-- Beyond ASCII, only blanks are in the alphabet. -/
theorem not_inAlphabet_of_not_ascii {c : Char} (hc : 128 ≤ c.toNat) (hblank : isBlank c = false) :
    ¬ InAlphabet c := by
  have hne {d : Char} (hd : d.toNat < 128) : c ≠ d := by
    rintro rfl
    omega
  rintro (hdigit | rfl | rfl | rfl | hsymbol | hblank')
  · have := (Char.isDigit_iff_toNat.mp hdigit).2
    have : '9'.toNat = 57 := rfl
    omega
  · exact absurd hc (by decide)
  · exact absurd hc (by decide)
  · exact absurd hc (by decide)
  · have hascii : ∀ d ∈ symbols, d.toNat < 128 := by simp [symbols]
    exact hne (hascii c hsymbol) rfl
  · rw [hblank] at hblank'
    nomatch hblank'

end Text

/-! ## The characters of tokens -/

namespace Numeral

variable {n : Numeral} {c : Char}

/-- A numeral has digits, a point, the mark of an exponent and its sign. -/
theorem WellFormed.mem_text (h : n.WellFormed) (hc : c ∈ n.text) :
    c.isDigit = true ∨ c = '.' ∨ c = 'e' ∨ c = 'E' ∨ c = '+' ∨ c = '-' := by
  rw [text, List.mem_append, List.mem_append] at hc
  rcases hc with (hwhole | hfraction) | hexponent
  · exact .inl (h.whole c hwhole)
  · cases hf : n.fraction with
    | none => rw [hf] at hfraction; exact absurd hfraction List.not_mem_nil
    | some digits =>
      rw [hf] at hfraction
      rcases List.mem_cons.mp hfraction with rfl | hdigit
      · exact .inr (.inl rfl)
      · exact .inl (h.fraction c (by rw [hf]; exact hdigit))
  · cases he : n.exponent with
    | none => rw [he] at hexponent; exact absurd hexponent List.not_mem_nil
    | some e =>
      rw [he] at hexponent
      have hwell := h.exponent e he
      rcases List.mem_cons.mp hexponent with rfl | hrest
      · exact .inr (.inr (hwell.mark.imp_right .inl))
      · rcases List.mem_append.mp hrest with hsign | hdigit
        · cases hs : e.sign with
          | none => rw [hs] at hsign; exact absurd hsign List.not_mem_nil
          | some sign =>
            rw [hs] at hsign
            cases sign with
            | plus => simp_all [signText, Sign.symbol]
            | minus => simp_all [signText, Sign.symbol]
        · exact .inl (hwell.digits c hdigit)

/-- A numeral starts with a digit, or with a point and a digit. -/
theorem read?_cons_eq_none_iff {cs : List Char} : read? (c :: cs) = none ↔
    c.isDigit = false ∧ ¬ (c = '.' ∧ ∃ d ∈ cs.head?, d.isDigit = true) := by
  cases hc : c.isDigit with
  | true =>
    have hwhole : (splitDigits (c :: cs)).1.isEmpty = false := by simp [splitDigits, hc]
    simp [read?, hwhole]
  | false =>
    have hwhole : splitDigits (c :: cs) = ([], c :: cs) := by simp [splitDigits, hc]
    by_cases hpoint : c = '.'
    · subst hpoint
      have hfraction : splitFraction ('.' :: cs) =
        (some (splitDigits cs).1, (splitDigits cs).2) := rfl
      cases cs with
      | nil => simp [read?, hfraction, splitDigits]
      | cons d cs =>
        cases hd : d.isDigit <;> simp [read?, hfraction, splitDigits, hd]
    · have hfraction : splitFraction (c :: cs) = (none, c :: cs) :=
        splitFraction_of_ne fun c' hc' => Option.some.inj hc' ▸ hpoint
      simp [read?, hwhole, hfraction, hpoint]

end Numeral

namespace Token

variable {c : Char} {cs chars rest : List Char} {kind : Kind}

/-- A token starts with these characters: with a symbol, with a digit, or with a point that has a
digit behind it. -/
def Starts : List Char → Prop
  | [] => False
  | c :: cs => c ∈ symbols ∨ c.isDigit = true ∨ c = '.' ∧ ∃ d ∈ cs.head?, d.isDigit = true

theorem Kind.isSome_ofChar?_iff : (Kind.ofChar? c).isSome = true ↔ c ∈ symbols := by
  unfold Kind.ofChar?
  split <;> simp_all [symbols]

/-- No token is read where none starts. -/
theorem read?_eq_none_iff : read? cs = none ↔ ¬ Starts cs := by
  cases cs with
  | nil => exact iff_of_true rfl not_false
  | cons c cs =>
    cases hk : Kind.ofChar? c with
    | some kind =>
      have hsymbol : c ∈ symbols := Kind.isSome_ofChar?_iff.mp (by rw [hk]; rfl)
      refine iff_of_false ?_ (not_not_intro (.inl hsymbol))
      unfold read?
      split <;> simp_all
    | none =>
      have hsymbol : c ∉ symbols := fun h => by
        have := Kind.isSome_ofChar?_iff.mpr h
        rw [hk] at this
        nomatch this
      rw [read?_of_none hk, Option.map_eq_none_iff, Numeral.read?_cons_eq_none_iff]
      simp [Starts, hsymbol]

/-- The characters of a token other than a number are symbols. -/
theorem mem_symbols_of_read? (h : read? cs = some (kind, chars, rest)) (hkind : kind ≠ .number) :
    ∀ c ∈ chars, c ∈ symbols := by
  fun_cases read? cs with
  | case1 cs =>
    simp only [read?, Option.some.injEq, Prod.mk.injEq] at h
    obtain ⟨-, rfl, -⟩ := h
    simp [symbols]
  | case2 => cases h
  | case3 c cs hstar k hk =>
    simp only [read?, hk, Option.some.injEq, Prod.mk.injEq] at h
    obtain ⟨-, rfl, -⟩ := h
    exact List.forall_mem_singleton.mpr (Kind.isSome_ofChar?_iff.mp (by rw [hk]; rfl))
  | case4 c cs hstar hk =>
    simp only [read?, hk, Option.map_eq_some_iff, Prod.mk.injEq] at h
    obtain ⟨_, _, hnumber, _⟩ := h
    exact absurd hnumber.symm hkind

/-- A token is made of characters of the alphabet, and only a number has points and exponent marks
in it. -/
theorem inAlphabet_of_read? (h : read? cs = some (kind, chars, rest)) (hc : c ∈ chars) :
    InAlphabet c ∧ (c = '.' ∨ c = 'e' ∨ c = 'E' → kind = .number) := by
  by_cases hkind : kind = .number
  · subst hkind
    obtain ⟨n, rfl, hn⟩ := numeral_of_read? h
    refine ⟨?_, fun _ => rfl⟩
    rcases (Numeral.wellFormed_of_read? hn).mem_text hc with hd | hp | he | hE | rfl | rfl
    · exact .inl hd
    · exact .inr (.inl hp)
    · exact .inr (.inr (.inl he))
    · exact .inr (.inr (.inr (.inl hE)))
    · decide
    · decide
  · have hsymbol := mem_symbols_of_read? h hkind c hc
    refine ⟨.inr (.inr (.inr (.inr (.inl hsymbol)))), ?_⟩
    rintro (rfl | rfl | rfl) <;> exact absurd hsymbol (by decide)

end Token

/-! ## The characters of texts -/

namespace Scan

variable {offset stop : Nat} {cs rest front back : List Char} {tokens : List Token} {c : Char}

/-- A character of two texts in a row stands in the second one or in the first one. -/
theorem append_eq_append_cons {cs ds : List Char} (h : cs ++ ds = front ++ c :: back) :
    (∃ more, front = cs ++ more ∧ ds = more ++ c :: back) ∨ ∃ more, cs = front ++ c :: more := by
  rcases List.append_eq_append_iff.mp h with ⟨more, hfront, hds⟩ | ⟨more, hcs, hmore⟩
  · exact .inl ⟨more, hfront, hds⟩
  · cases more with
    | nil => exact .inl ⟨[], by rw [hcs, List.append_nil, List.append_nil], hmore.symm⟩
    | cons c' more =>
      obtain ⟨rfl, -⟩ := List.cons.inj hmore
      exact .inr ⟨more, hcs⟩

/-- What is read are blanks and the texts of tokens. -/
theorem Reads.mem_char (h : Reads offset cs tokens stop rest) (hcs : cs = front ++ c :: back)
    (hlt : offset + width front < stop) : isBlank c = true ∨ ∃ token ∈ tokens,
      token.span.start ≤ offset + width front ∧ offset + width front < token.span.stop ∧
        c ∈ token.text.toList := by
  induction h generalizing front with
  | done => omega
  | @blank offset stop c₀ cs rest tokens hblank _ ih =>
    cases front with
    | nil =>
      obtain ⟨rfl, -⟩ := List.cons.inj hcs
      exact .inl hblank
    | cons c₁ front =>
      obtain ⟨rfl, rfl⟩ := List.cons.inj hcs
      rw [width_cons, ← Nat.add_assoc] at hlt ⊢
      exact ih rfl hlt
  | @token offset stop cs chars cs' rest kind tokens hread _ ih =>
    rw [← Token.text_read? hread] at hcs
    rcases append_eq_append_cons hcs with ⟨more, rfl, hcs'⟩ | ⟨more, rfl⟩
    · rw [width_append, ← Nat.add_assoc] at hlt ⊢
      obtain hblank | ⟨token, hmem, htoken⟩ := ih hcs' hlt
      · exact .inl hblank
      · exact .inr ⟨token, List.mem_cons_of_mem _ hmem, htoken⟩
    · have hpos := c.utf8Size_pos
      refine .inr ⟨_, List.mem_cons_self, Nat.le_add_right .., ?_, ?_⟩
      · simp only [width_append, width_cons]
        omega
      · rw [String.toList_ofList]
        exact List.mem_append_right _ List.mem_cons_self

/-- What is read is made of characters of the alphabet, and points and exponent marks stand in
number tokens. -/
theorem Reads.inAlphabet (h : Reads offset cs tokens stop rest) (hcs : cs = front ++ c :: back)
    (hlt : offset + width front < stop) : InAlphabet c ∧ (c = '.' ∨ c = 'e' ∨ c = 'E' →
      ∃ token ∈ tokens, token.kind = .number ∧ token.span.start ≤ offset + width front ∧
        offset + width front < token.span.stop) := by
  rcases h.mem_char hcs hlt with hblank | ⟨token, hmem, hstart, hstop, hc⟩
  · refine ⟨.inr (.inr (.inr (.inr (.inr hblank)))), ?_⟩
    rintro (rfl | rfl | rfl) <;> exact absurd hblank (by decide)
  · obtain ⟨front', chars, back', -, hread, htext, -⟩ := h.mem hmem
    rw [htext, String.toList_ofList] at hc
    obtain ⟨halphabet, hnumber⟩ := Token.inAlphabet_of_read? hread hc
    exact ⟨halphabet, fun hpoint => ⟨token, hmem, hnumber hpoint, hstart, hstop⟩⟩

/-- A text without a fault is made of characters of the alphabet, and points and exponent marks
stand in number tokens. -/
theorem inAlphabet_of_fault_eq_none {text : String} (h : (ofText text).fault = none)
    (htext : text.toList = front ++ c :: back) : InAlphabet c ∧ (c = '.' ∨ c = 'e' ∨ c = 'E' →
      ∃ token ∈ (ofText text).tokens, token.kind = .number ∧ token.span.start ≤ width front ∧
        width front < token.span.stop) := by
  obtain ⟨stop, rest, hreads, hnil⟩ := reads_ofText text
  obtain rfl := hnil h
  obtain ⟨chars, hchars, hstop⟩ := hreads.eq_append
  rw [List.append_nil] at hchars
  have hlt : 0 + width front < stop := by
    have := c.utf8Size_pos
    rw [hstop, ← hchars, htext, width_append, width_cons]
    omega
  have halphabet := hreads.inAlphabet htext hlt
  rwa [Nat.zero_add] at halphabet

/-- A fault is the first character behind tokens and blanks with which no token starts. -/
theorem exists_fault {text : String} (h : (ofText text).fault ≠ none) : ∃ front c back,
    text.toList = front ++ c :: back ∧
      Reads 0 text.toList (ofText text).tokens (width front) (c :: back) ∧
      isBlank c = false ∧ ¬ Token.Starts (c :: back) ∧
      (ofText text).fault = some ⟨.unexpectedChar c, ⟨width front, width front + c.utf8Size⟩⟩ := by
  obtain ⟨stop, rest, hreads, ⟨hnone, -⟩ | ⟨c, back, rfl, hblank, hread, hfault⟩⟩ :=
    reads_or_fault text
  · exact absurd hnone h
  · obtain ⟨front, htext, rfl⟩ := hreads.eq_append
    rw [Nat.zero_add] at hreads hfault
    exact ⟨front, c, back, htext, hreads, hblank, Token.read?_eq_none_iff.mp hread, hfault⟩

end Scan

namespace Limits

variable {limits : Limits} {text : String} {tree : Expr} {fault : Report}

/-- A fault hides all other reports. -/
theorem diagnostics_of_fault (h : (Scan.ofText text).fault = some fault) (nesting : Nat) :
    (Analysis.ofText nesting text).diagnostics = [fault.toDiagnostic] := by
  unfold Analysis.diagnostics Analysis.ofText Analysis.ofScan
  rw [h]
  rfl

theorem parse_of_fault (h : (Scan.ofText text).fault = some fault) :
    limits.parse text = .error ⟨[fault.toDiagnostic]⟩ := by
  have hreports : (Analysis.ofText limits.nesting text).hasReports = true := by
    unfold Analysis.hasReports Analysis.ofText Analysis.ofScan
    rw [h]
    rfl
  unfold parse
  dsimp only
  rw [if_pos hreports, diagnostics_of_fault h]

theorem calculate_of_fault (h : (Scan.ofText text).fault = some fault) :
    limits.calculate text = .error (.malformed ⟨[fault.toDiagnostic]⟩) := by
  unfold calculate
  rw [parse_of_fault h]
  rfl

/-- The text is rejected for the character `c` behind `front`: no token starts there, in front of it
stand tokens and blanks, and nothing else is reported, whatever the limits are. -/
structure RejectedAt (text : String) (front : List Char) (c : Char) (back : List Char) : Prop where
  text_eq : text.toList = front ++ c :: back
  reads : Scan.Reads 0 text.toList (Scan.ofText text).tokens (width front) (c :: back)
  not_blank : isBlank c = false
  not_starts : ¬ Token.Starts (c :: back)
  fault : (Scan.ofText text).fault.map Report.toDiagnostic = some
    ⟨"unexpected char '" ++ c.toString ++ "'", ⟨width front, width front + c.utf8Size⟩, []⟩
  diagnostics : ∀ nesting, (Analysis.ofText nesting text).diagnostics =
    [⟨"unexpected char '" ++ c.toString ++ "'", ⟨width front, width front + c.utf8Size⟩, []⟩]
  parse : ∀ limits : Limits, limits.parse text = .error
    ⟨[⟨"unexpected char '" ++ c.toString ++ "'", ⟨width front, width front + c.utf8Size⟩, []⟩]⟩
  calculate : ∀ limits : Limits, limits.calculate text = .error (.malformed
    ⟨[⟨"unexpected char '" ++ c.toString ++ "'", ⟨width front, width front + c.utf8Size⟩, []⟩]⟩)

/-- A text with a fault is rejected for it. -/
theorem exists_rejectedAt (h : (Scan.ofText text).fault ≠ none) :
    ∃ front c back, RejectedAt text front c back := by
  obtain ⟨front, c, back, htext, hreads, hblank, hstarts, hfault⟩ := Scan.exists_fault h
  exact ⟨front, c, back, htext, hreads, hblank, hstarts, congrArg (Option.map _) hfault,
    diagnostics_of_fault hfault, fun _ => parse_of_fault hfault,
    fun _ => calculate_of_fault hfault⟩

/-- The alphabet is closed. A text with a character outside it, such as any character beyond ASCII
that is no blank, is rejected for the first character with which no token starts. So an accepted
text is made of characters of the alphabet, and its points and exponent marks stand in number
tokens. -/
theorem closed_alphabet (text : String) :
    (∀ foreign ∈ text.toList,
      ¬ InAlphabet foreign ∨ (128 ≤ foreign.toNat ∧ isBlank foreign = false) →
        ∃ front c back, RejectedAt text front c back) ∧
    ∀ (limits : Limits) (tree : Expr), limits.parse text = .ok tree →
      ∀ front c back, text.toList = front ++ c :: back → InAlphabet c ∧
        (c = '.' ∨ c = 'e' ∨ c = 'E' → ∃ token ∈ (Scan.ofText text).tokens,
          token.kind = .number ∧ token.span.start ≤ width front ∧
            width front < token.span.stop) := by
  refine ⟨fun foreign hmem hforeign => ?_, fun limits tree h front c back htext => ?_⟩
  · have houtside : ¬ InAlphabet foreign :=
      hforeign.elim id fun h => not_inAlphabet_of_not_ascii h.1 h.2
    obtain ⟨before, behind, htext⟩ := List.append_of_mem hmem
    exact exists_rejectedAt fun hnone =>
      houtside (Scan.inAlphabet_of_fault_eq_none hnone htext).1
  · exact Scan.inAlphabet_of_fault_eq_none (parse_eq_ok_iff.mp h).1 htext

/-- A text is rejected for the mark of an exponent without digits, in front of the foreign
character; where the exponent has digits, its mark stands in a number. -/
theorem closed_alphabet_exponent :
    (∃ front c back, RejectedAt "2e × 3" front c back) ∧
      ∃ token ∈ (Scan.ofText "2e3").tokens, token.kind = .number ∧
        token.span.start ≤ 1 ∧ 1 < token.span.stop := by
  have hforeign : ¬ InAlphabet '×' := by decide
  have hparse : ({} : Limits).parse "2e3" = .ok (.number "2e3" ⟨0, 3⟩) := by decide +kernel
  exact ⟨(closed_alphabet "2e × 3").1 '×' (by decide) (.inl hforeign),
    ((closed_alphabet "2e3").2 {} _ hparse ['2'] 'e' ['3'] (by decide)).2 (.inr (.inl rfl))⟩

/-- Not all characters beyond ASCII are foreign: a no-break space is a blank, and stands between
tokens like any other one. -/
theorem accepts_no_break_space :
    ¬ ∀ text : String, (∃ c ∈ text.toList, 128 ≤ c.toNat) →
      (Scan.ofText text).fault ≠ none ∧ ∀ limits : Limits, ∃ error,
        limits.calculate text = .error (.malformed error) := by
  intro h
  have hscan : (Scan.ofText "1\u00a0+ 2").fault = none := by decide +kernel
  exact (h "1\u00a0+ 2" ⟨'\u00a0', by decide, by decide⟩).1 hscan

end Limits

end Calculator

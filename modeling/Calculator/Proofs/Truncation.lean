import Calculator.Proofs.Scan

/-!
# Texts that are cut off

What is read off the front of a text does not depend on how far the text goes on. So a text that is
cut off behind a token is read as it was up to there, and the tokens between two places of a text
are those of the piece between them.

* `Numeral.read?_cut`, `Token.read?_cut`: one reading, with a part of the rest cut off.
* `Scan.Reads.split`: the tokens up to one of them, and those behind it.
* `Scan.Reads.skip`, `Scan.Reads.trim`: the blanks in front of the first token and behind the last.
* `Scan.Reads.cut`: the text cut off where a reading stops.
* `Scan.Reads.relativeTo`: the offsets of a text that stands elsewhere.
-/

namespace Calculator

namespace Numeral

variable {cs rest tail : List Char}

/-- Digits are split off up to the end of the text or up to another character. -/
theorem isDigit_of_head_splitDigits {c : Char} (h : c ∈ (splitDigits cs).2.head?) :
    c.isDigit = false := by
  have hnot := List.head?_dropWhile_not Char.isDigit cs
  rw [show cs.dropWhile Char.isDigit = (splitDigits cs).2 from rfl, Option.mem_def.mp h] at hnot
  exact hnot

theorem splitDigits_cut {digits : List Char}
    (h : splitDigits (cs ++ tail) = (digits, rest ++ tail)) : splitDigits cs = (digits, rest) := by
  have hcs := splitDigits_append (cs ++ tail)
  have hdigits : ∀ c ∈ (splitDigits (cs ++ tail)).1, c.isDigit = true :=
    fun c => isDigit_of_mem_splitDigits
  have hend : ∀ c ∈ (splitDigits (cs ++ tail)).2.head?, c.isDigit = false :=
    fun c => isDigit_of_head_splitDigits
  rw [h] at hcs hdigits hend
  obtain rfl : digits ++ rest = cs := by
    rw [← List.append_assoc] at hcs
    exact List.append_cancel_right hcs
  refine splitDigits_append_of hdigits fun c hc => hend c ?_
  rw [List.head?_append, Option.mem_def.mp hc]
  rfl

theorem splitFraction_cut {fraction : Option (List Char)}
    (h : splitFraction (cs ++ tail) = (fraction, rest ++ tail)) :
    splitFraction cs = (fraction, rest) := by
  have hcs := splitFraction_append (cs ++ tail)
  rw [h, ← List.append_assoc] at hcs
  obtain rfl : fractionText fraction ++ rest = cs := List.append_cancel_right hcs
  cases fraction with
  | none =>
    show splitFraction rest = (none, rest)
    refine splitFraction_of_ne fun c hc => ?_
    rintro rfl
    obtain ⟨cs, rfl⟩ := List.head?_eq_some_iff.mp hc
    nomatch congrArg Prod.fst h
  | some digits =>
    have hdigits : splitDigits (digits ++ rest ++ tail) = (digits, rest ++ tail) := by
      simpa [fractionText, splitFraction, Prod.ext_iff] using h
    show (some (splitDigits (digits ++ rest)).1, (splitDigits (digits ++ rest)).2) = _
    rw [splitDigits_cut hdigits]

theorem splitDigits_nil_cut (h : (splitDigits (cs ++ tail)).1 = []) : (splitDigits cs).1 = [] := by
  cases cs with
  | nil => rfl
  | cons c cs =>
    have hc : c.isDigit = false := Bool.eq_false_iff.mpr fun hc => by simp [splitDigits, hc] at h
    simp [splitDigits, hc]

namespace Exponent

variable {mark : Char}

theorem split_of_nil (hmark : mark = 'e' ∨ mark = 'E')
    (h : (splitDigits (splitSign cs).2).1 = []) : split (mark :: cs) = (none, mark :: cs) := by
  rw [split, if_pos hmark]
  exact if_pos (List.isEmpty_iff.mpr h)

theorem split_of_ne_nil (hmark : mark = 'e' ∨ mark = 'E')
    (h : (splitDigits (splitSign cs).2).1 ≠ []) : split (mark :: cs) =
      (some ⟨mark, (splitSign cs).1, (splitDigits (splitSign cs).2).1⟩,
        (splitDigits (splitSign cs).2).2) := by
  rw [split, if_pos hmark]
  exact if_neg fun hnil => h (List.isEmpty_iff.mp hnil)

theorem isDigit_of_head_split {e : Exponent} (h : split cs = (some e, rest)) :
    ∀ c ∈ rest.head?, c.isDigit = false := by
  cases cs with
  | nil => nomatch h
  | cons mark cs =>
    by_cases hmark : mark = 'e' ∨ mark = 'E'
    · by_cases hnil : (splitDigits (splitSign cs).2).1 = []
      · nomatch (split_of_nil hmark hnil).symm.trans h
      · obtain ⟨-, rfl⟩ := Prod.mk.inj ((split_of_ne_nil hmark hnil).symm.trans h)
        exact fun c => isDigit_of_head_splitDigits
    · rw [split, if_neg hmark] at h
      nomatch h

/-- Where no digits stand behind a mark, none do if the text is cut off. -/
theorem splitDigits_splitSign_cut (h : (splitDigits (splitSign (cs ++ tail)).2).1 = []) :
    (splitDigits (splitSign cs).2).1 = [] := by
  cases cs with
  | nil => rfl
  | cons c cs =>
    by_cases hplus : c = '+'
    · subst hplus
      exact splitDigits_nil_cut h
    · by_cases hminus : c = '-'
      · subst hminus
        exact splitDigits_nil_cut h
      · rw [List.cons_append, splitSign_of_ne hplus hminus] at h
        rw [splitSign_of_ne hplus hminus]
        exact splitDigits_nil_cut h

theorem split_cut {exponent : Option Exponent}
    (h : split (cs ++ tail) = (exponent, rest ++ tail)) : split cs = (exponent, rest) := by
  have hcs := split_append (cs ++ tail)
  rw [h, ← List.append_assoc] at hcs
  obtain rfl : (exponent.map text).getD [] ++ rest = cs := List.append_cancel_right hcs
  cases exponent with
  | some e =>
    refine split_text_append (wellFormed_of_split (congrArg Prod.fst h)) fun c hc => ?_
    refine isDigit_of_head_split h c ?_
    rw [List.head?_append, Option.mem_def.mp hc]
    rfl
  | none =>
    show split rest = (none, rest)
    cases rest with
    | nil => rfl
    | cons mark cs =>
      by_cases hmark : mark = 'e' ∨ mark = 'E'
      · have hnil : (splitDigits (splitSign (cs ++ tail)).2).1 = [] :=
          Decidable.byContradiction fun hne => nomatch (split_of_ne_nil hmark hne).symm.trans h
        exact split_of_nil hmark (splitDigits_splitSign_cut hnil)
      · rw [split, if_neg hmark]

end Exponent

/-- A numeral is read again from a text that is cut off behind it. -/
theorem read?_cut {n : Numeral} (h : read? (cs ++ tail) = some (n, rest ++ tail)) :
    read? cs = some (n, rest) := by
  rcases hw : splitDigits (cs ++ tail) with ⟨whole, afterWhole⟩
  rcases hf : splitFraction afterWhole with ⟨fraction, afterFraction⟩
  rcases he : Exponent.split afterFraction with ⟨exponent, after⟩
  simp only [read?, hw, hf, he] at h ⊢
  split at h
  · cases h
  · next hdigit =>
    obtain ⟨rfl, rfl⟩ := Prod.mk.inj (Option.some.inj h)
    -- What follows each part of the numeral goes on to the part that is cut off.
    have hexponent := Exponent.split_append afterFraction
    have hfraction := splitFraction_append afterWhole
    rw [he, ← List.append_assoc] at hexponent
    rw [hf, ← hexponent, ← List.append_assoc] at hfraction
    rw [← hexponent] at he hf
    rw [← hfraction] at hw hf
    rw [splitDigits_cut hw]
    dsimp only
    rw [splitFraction_cut hf]
    dsimp only
    rw [Exponent.split_cut he, if_neg hdigit]

end Numeral

namespace Token

variable {c : Char} {cs chars rest tail : List Char} {kind : Kind}

theorem read?_of_ofChar? (hc : Kind.ofChar? c = some kind)
    (hstar : ∀ more, c = '*' → cs ≠ '*' :: more) : read? (c :: cs) = some (kind, [c], cs) := by
  unfold read?
  split
  · next heq =>
    obtain ⟨rfl, rfl⟩ := List.cons.inj heq
    exact absurd rfl (hstar _ rfl)
  · next heq => nomatch heq
  · next heq =>
    obtain ⟨rfl, rfl⟩ := List.cons.inj heq
    rw [hc]

theorem read?_of_none (hc : Kind.ofChar? c = none) :
    read? (c :: cs) = (Numeral.read? (c :: cs)).map fun r => (.number, r.1.text, r.2) := by
  unfold read?
  split
  · next heq =>
    obtain ⟨rfl, rfl⟩ := List.cons.inj heq
    nomatch hc
  · next heq => nomatch heq
  · next heq =>
    obtain ⟨rfl, rfl⟩ := List.cons.inj heq
    rw [hc]

/-- A token is read again from a text that is cut off behind it. -/
theorem read?_cut (h : read? (cs ++ tail) = some (kind, chars, rest ++ tail)) :
    read? cs = some (kind, chars, rest) := by
  obtain rfl : chars ++ rest = cs := by
    have hcs := text_read? h
    rw [← List.append_assoc] at hcs
    exact List.append_cancel_right hcs
  generalize hwhole : chars ++ rest ++ tail = whole at h
  fun_cases read? whole with
  | case1 more =>
    simp only [read?, Option.some.injEq, Prod.mk.injEq] at h
    obtain ⟨rfl, rfl, -⟩ := h
    rfl
  | case2 => cases h
  | case3 c more hstar k hk =>
    simp only [read?_of_ofChar? hk hstar, Option.some.injEq, Prod.mk.injEq] at h
    obtain ⟨rfl, rfl, rfl⟩ := h
    exact read?_of_ofChar? hk fun more hc hrest =>
      hstar (more ++ tail) hc (congrArg (· ++ tail) hrest)
  | case4 c more hstar hk =>
    obtain ⟨first, chars, rfl⟩ := List.exists_cons_of_ne_nil (text_ne_nil_of_read? h)
    obtain ⟨rfl, rfl⟩ := List.cons.inj hwhole
    simp only [read?_of_none hk, Option.map_eq_some_iff, Prod.mk.injEq] at h
    obtain ⟨⟨n, after⟩, hn, rfl, htext, rfl⟩ := h
    show read? (first :: (chars ++ rest)) = _
    rw [read?_of_none hk, Numeral.read?_cut hn, Option.map_some, htext]

end Token

/-! ## Offsets -/

/-- The span in a text that starts at `origin`. -/
def Span.relativeTo (origin : Nat) (s : Span) : Span := ⟨s.start - origin, s.stop - origin⟩

/-- The token in a text that starts at `origin`. -/
def Token.relativeTo (origin : Nat) (token : Token) : Token :=
  { token with span := token.span.relativeTo origin }

namespace Scan

open Text

variable {offset stop : Nat} {cs rest : List Char} {token : Token} {tokens : List Token}

/-- A reading can stop behind any of its tokens. -/
theorem Reads.split {front back : List Token} (h : Reads offset cs (front ++ back) stop rest) :
    ∃ offset' cs', Reads offset cs front offset' cs' ∧ Reads offset' cs' back stop rest := by
  generalize htokens : front ++ back = tokens at h
  induction h generalizing front with
  | done =>
    obtain ⟨rfl, rfl⟩ := List.append_eq_nil_iff.mp htokens
    exact ⟨_, _, .done, .done⟩
  | blank hblank _ ih =>
    obtain ⟨offset', cs', hfront, hback⟩ := ih htokens
    exact ⟨offset', cs', .blank hblank hfront, hback⟩
  | token hread h ih =>
    cases front with
    | nil =>
      obtain rfl : back = _ := htokens
      exact ⟨_, _, .done, .token hread h⟩
    | cons first front =>
      obtain ⟨rfl, hrest⟩ := List.cons.inj htokens
      obtain ⟨offset', cs', hfront, hback⟩ := ih hrest
      exact ⟨offset', cs', .token hread hfront, hback⟩

/-- In front of the first token stand blanks only. -/
theorem Reads.skip (h : Reads offset cs (token :: tokens) stop rest) :
    ∃ cs', Reads offset cs [] token.span.start cs' ∧
      Reads token.span.start cs' (token :: tokens) stop rest := by
  generalize htokens : token :: tokens = all at h
  induction h with
  | done => nomatch htokens
  | blank hblank _ ih =>
    obtain ⟨cs', hskipped, h⟩ := ih htokens
    exact ⟨cs', .blank hblank hskipped, h⟩
  | token hread h _ =>
    obtain ⟨rfl, rfl⟩ := List.cons.inj htokens
    exact ⟨_, .done, .token hread h⟩

/-- Behind the last token stand blanks only. -/
theorem Reads.trim {last : Token} (h : Reads offset cs tokens stop rest)
    (hlast : last ∈ tokens.getLast?) : ∃ cs', Reads offset cs tokens last.span.stop cs' ∧
      Reads last.span.stop cs' [] stop rest := by
  induction h with
  | done => nomatch hlast
  | blank hblank _ ih =>
    obtain ⟨cs', h, hskipped⟩ := ih hlast
    exact ⟨cs', .blank hblank h, hskipped⟩
  | @token offset stop cs chars cs' rest kind tokens hread h ih =>
    cases tokens with
    | nil =>
      obtain rfl := Option.some.inj hlast
      exact ⟨cs', .token hread .done, h⟩
    | cons first tokens =>
      rw [List.getLast?_cons_cons] at hlast
      obtain ⟨cs'', h, hskipped⟩ := ih hlast
      exact ⟨cs'', .token hread h, hskipped⟩

/-- A text that is cut off where a reading stops has the tokens up to there. -/
theorem Reads.cut (h : Reads offset cs tokens stop rest) :
    ∃ piece, cs = piece ++ rest ∧ stop = offset + width piece ∧
      Reads offset piece tokens stop [] := by
  induction h with
  | done => exact ⟨[], rfl, rfl, .done⟩
  | @blank offset stop c cs rest tokens hblank _ ih =>
    obtain ⟨piece, rfl, hstop, h⟩ := ih
    exact ⟨c :: piece, rfl, by rw [hstop, width_cons, Nat.add_assoc], .blank hblank h⟩
  | @token offset stop cs chars cs' rest kind tokens hread _ ih =>
    obtain rfl := Token.text_read? hread
    obtain ⟨piece, rfl, hstop, h⟩ := ih
    rw [← List.append_assoc] at hread
    refine ⟨chars ++ piece, (List.append_assoc ..).symm, ?_, .token (Token.read?_cut hread) h⟩
    rw [hstop, width_append, Nat.add_assoc]

/-- What is read are the characters up to the rest. -/
theorem Reads.eq_append (h : Reads offset cs tokens stop rest) :
    ∃ chars, cs = chars ++ rest ∧ stop = offset + width chars := by
  obtain ⟨chars, hcs, hstop, -⟩ := h.cut
  exact ⟨chars, hcs, hstop⟩

/-- A text that stands by itself has the same tokens, with offsets of its own. -/
theorem Reads.relativeTo {origin : Nat} (h : Reads offset cs tokens stop rest)
    (hle : origin ≤ offset) : Reads (offset - origin) cs (tokens.map (Token.relativeTo origin))
      (stop - origin) rest := by
  induction h with
  | done => exact .done
  | @blank offset stop c cs rest tokens hblank _ ih =>
    have := ih (Nat.le_add_right_of_le hle)
    rw [Nat.sub_add_comm hle] at this
    exact .blank hblank this
  | @token offset stop cs chars cs' rest kind tokens hread _ ih =>
    have := ih (Nat.le_add_right_of_le hle)
    rw [Nat.sub_add_comm hle] at this
    rw [List.map_cons, Token.relativeTo, Span.relativeTo, Nat.sub_add_comm hle]
    exact .token hread this

end Scan

end Calculator

import Calculator.Proofs.Numeral
import Calculator.Scan

/-!
# What a scan finds

`Scan.Reads` says which tokens are read off the front of a text, without the accumulator of the
scan. Each token is read with the actual rest of the text behind it, so that two readings join only
if the second one starts where the first one stopped.

* `Token.not_isBlank_of_read?`: no token starts with a blank, so that blanks are always skipped.
* `Scan.reads_or_fault`: a scan reads its tokens, and the rest of the text is empty or starts with
  the character that is its fault.
* `Scan.ofText_of_reads`: a text that is read as a whole has no fault.
* `Scan.cuts_of_mem`: the text of a token is what stands under its span.
* `Scan.isLiteral_of_mem`: the text of a number token is a literal.
-/

namespace Calculator

open Text

/-- The bytes of `text` under the span are those of `piece`. -/
def Span.Cuts (span : Span) (text piece : String) : Prop :=
  ∃ front back : String, text = front ++ piece ++ back ∧
    span = ⟨front.utf8ByteSize, front.utf8ByteSize + piece.utf8ByteSize⟩

/-- The characters of a text between two places stand under the span between them. -/
theorem Span.cuts_of_toList {text : String} {front piece back : List Char}
    (h : text.toList = front ++ (piece ++ back)) :
    Span.Cuts ⟨width front, width front + width piece⟩ text (String.ofList piece) := by
  refine ⟨String.ofList front, String.ofList back, ?_, ?_⟩
  · rw [← String.ofList_append, ← String.ofList_append, List.append_assoc, ← h,
      String.ofList_toList]
  · rw [utf8ByteSize_ofList, utf8ByteSize_ofList]

/-- A character with which a numeral may start is not blank. -/
theorem Text.not_isBlank_of_digit_or_point {c : Char} (h : c.isDigit = true ∨ c = '.') :
    isBlank c = false := by
  rcases h with h | rfl
  · have hlow : 48 ≤ c.toNat := (Char.isDigit_iff_toNat.mp h).1
    have hhigh : c.toNat ≤ 57 := (Char.isDigit_iff_toNat.mp h).2
    simp only [isBlank, blankRanges, List.any_cons, List.any_nil, Bool.or_false,
      Bool.or_eq_false_iff, Bool.and_eq_false_iff, decide_eq_false_iff_not]
    omega
  · decide

namespace Token

/-- A token of one character is spelled with it. -/
theorem Kind.symbol?_of_ofChar? {c : Char} {kind : Kind} (h : Kind.ofChar? c = some kind) :
    kind.symbol? = some (String.ofList [c]) := by
  unfold Kind.ofChar? at h
  split at h <;> cases h <;> rfl

/-- The end of the text is no piece of it. -/
theorem kind_ne_finish_of_read? {cs text rest : List Char} {kind : Kind}
    (h : read? cs = some (kind, text, rest)) : kind ≠ .finish := by
  rintro rfl
  fun_cases read? cs with
  | case1 cs => simp [read?] at h
  | case2 => cases h
  | case3 c cs hstar k hk =>
    simp only [read?, hk, Option.some.injEq, Prod.mk.injEq] at h
    rw [h.1] at hk
    cases Kind.symbol?_of_ofChar? hk
  | case4 c cs hstar hk => simp [read?, hk] at h

/-- A number token is read as a numeral. -/
theorem numeral_of_read? {cs text rest : List Char} (h : read? cs = some (.number, text, rest)) :
    ∃ n : Numeral, n.text = text ∧ Numeral.read? cs = some (n, rest) := by
  fun_cases read? cs with
  | case1 cs => simp [read?] at h
  | case2 => cases h
  | case3 c cs hstar k hk =>
    simp only [read?, hk, Option.some.injEq, Prod.mk.injEq] at h
    rw [h.1] at hk
    cases Kind.symbol?_of_ofChar? hk
  | case4 c cs hstar hk =>
    simp only [read?, hk, Option.map_eq_some_iff, Prod.mk.injEq, true_and] at h
    obtain ⟨⟨n, r⟩, hn, htext, rfl⟩ := h
    exact ⟨n, htext, hn⟩

/-- No other token starts with a character with which a numeral may start. -/
theorem Kind.ofChar?_of_digit_or_point {c : Char} (h : c.isDigit = true ∨ c = '.') :
    Kind.ofChar? c = none := by
  cases hk : Kind.ofChar? c with
  | none => rfl
  | some kind =>
    unfold Kind.ofChar? at hk
    split at hk <;> simp_all

/-- A token starts with a character that is not blank. -/
theorem not_isBlank_of_read? {cs chars rest : List Char} {kind : Kind}
    (h : read? cs = some (kind, chars, rest)) : ∀ c ∈ cs.head?, isBlank c = false := by
  intro c' hc'
  fun_cases read? cs with
  | case1 cs =>
    obtain rfl : '*' = c' := Option.some.inj hc'
    decide
  | case2 => cases hc'
  | case3 c cs hstar k hk =>
    obtain rfl : c = c' := Option.some.inj hc'
    unfold Kind.ofChar? at hk
    split at hk <;> simp_all <;> decide
  | case4 c cs hstar hk =>
    obtain rfl : c = c' := Option.some.inj hc'
    simp only [read?, hk, Option.map_eq_some_iff] at h
    obtain ⟨⟨n, r⟩, hn, -⟩ := h
    obtain ⟨c', cs', hcs, hhead⟩ := (Numeral.wellFormed_of_read? hn).head
    have htext := Numeral.text_read? hn
    rw [hcs, List.cons_append] at htext
    rw [← (List.cons.inj htext).1]
    exact not_isBlank_of_digit_or_point hhead

end Token

namespace Scan

/-- The characters `cs` stand at `offset`, and up to `rest`, which stands at `stop`, they are these
tokens and blanks between them. -/
inductive Reads : Nat → List Char → List Token → Nat → List Char → Prop where
  | done {offset : Nat} {rest : List Char} : Reads offset rest [] offset rest
  | blank {offset stop : Nat} {c : Char} {cs rest : List Char} {tokens : List Token}
    (hblank : isBlank c = true) (h : Reads (offset + c.utf8Size) cs tokens stop rest) :
    Reads offset (c :: cs) tokens stop rest
  | token {offset stop : Nat} {cs chars cs' rest : List Char} {kind : Token.Kind}
    {tokens : List Token} (hread : Token.read? cs = some (kind, chars, cs'))
    (h : Reads (offset + width chars) cs' tokens stop rest) :
    Reads offset cs (⟨kind, String.ofList chars, ⟨offset, offset + width chars⟩⟩ :: tokens) stop
      rest

variable {offset stop : Nat} {cs rest : List Char} {tokens : List Token}

theorem Reads.append {offset' : Nat} {cs' : List Char} {tokens' : List Token}
    (h : Reads offset cs tokens offset' cs') (h' : Reads offset' cs' tokens' stop rest) :
    Reads offset cs (tokens ++ tokens') stop rest := by
  induction h with
  | done => exact h'
  | blank hblank _ ih => exact .blank hblank (ih h')
  | token hread _ ih => exact .token hread (ih h')

/-- A scan goes on behind what is read. -/
theorem Reads.tokensFrom_eq (h : Reads offset cs tokens stop rest) (found : List Token) :
    tokensFrom offset found cs = tokensFrom stop (tokens.reverse ++ found) rest := by
  induction h generalizing found with
  | done => rfl
  | blank hblank _ ih =>
    rw [tokensFrom, if_pos hblank]
    exact ih found
  | @token offset stop cs chars cs' rest kind tokens hread _ ih =>
    cases cs with
    | nil => cases hread
    | cons c cs =>
      have hblank := Token.not_isBlank_of_read? hread c rfl
      rw [tokensFrom, if_neg (Bool.eq_false_iff.mp hblank)]
      split
      · next hnone => rw [hread] at hnone; cases hnone
      · next kind' chars' rest' hsome =>
        cases hread.symm.trans hsome
        dsimp only
        rw [utf8ByteSize_ofList, ih]
        simp

/-- A scan reads the tokens that it gives, as far as the character with which none starts. -/
theorem exists_reads (offset : Nat) (found : List Token) (cs : List Char) :
    ∃ tokens stop rest, Reads offset cs tokens stop rest ∧
      (tokensFrom offset found cs).1 = found.reverse ++ tokens ∧
      ((tokensFrom offset found cs).2 = none ∧ rest = [] ∨
        ∃ c back, rest = c :: back ∧ isBlank c = false ∧ Token.read? rest = none ∧
          (tokensFrom offset found cs).2 =
            some ⟨.unexpectedChar c, ⟨stop, stop + c.utf8Size⟩⟩) := by
  fun_induction tokensFrom offset found cs with
  | case1 offset found =>
    exact ⟨[], offset, [], .done, (List.append_nil _).symm, .inl ⟨rfl, rfl⟩⟩
  | case2 offset found c cs hblank ih =>
    obtain ⟨tokens, stop, rest, hreads, hfound, hend⟩ := ih
    exact ⟨tokens, stop, rest, .blank hblank hreads, hfound, hend⟩
  | case3 offset found c cs hblank hread =>
    exact ⟨[], offset, c :: cs, .done, (List.append_nil _).symm,
      .inr ⟨c, cs, rfl, Bool.eq_false_iff.mpr hblank, hread, rfl⟩⟩
  | case4 offset found c cs hblank kind chars cs' hread text stop hlt ih =>
    obtain ⟨tokens, stop', rest, hreads, hfound, hend⟩ := ih
    have hstop : stop = offset + width chars := congrArg (offset + ·) (utf8ByteSize_ofList chars)
    rw [hstop] at hreads
    refine ⟨_, stop', rest, .token hread hreads, ?_, hend⟩
    rw [hfound, hstop]
    simp [text]

/-- A scan reads its tokens. Without a fault, they are all of the text; a fault is the character
behind them, with which no token starts. -/
theorem reads_or_fault (text : String) : ∃ stop rest,
    Reads 0 text.toList (ofText text).tokens stop rest ∧
      ((ofText text).fault = none ∧ rest = [] ∨
        ∃ c back, rest = c :: back ∧ isBlank c = false ∧ Token.read? rest = none ∧
          (ofText text).fault = some ⟨.unexpectedChar c, ⟨stop, stop + c.utf8Size⟩⟩) := by
  obtain ⟨tokens, stop, rest, hreads, hfound, hend⟩ := exists_reads 0 [] text.toList
  refine ⟨stop, rest, ?_, hend⟩
  rw [List.reverse_nil, List.nil_append] at hfound
  show Reads 0 text.toList (tokensFrom 0 [] text.toList).1 stop rest
  rw [hfound]
  exact hreads

/-- A scan reads its tokens; without a fault, they are all of the text. -/
theorem reads_ofText (text : String) : ∃ stop rest,
    Reads 0 text.toList (ofText text).tokens stop rest ∧
      ((ofText text).fault = none → rest = []) := by
  obtain ⟨stop, rest, hreads, ⟨-, hnil⟩ | ⟨c, back, -, -, -, hfault⟩⟩ := reads_or_fault text
  · exact ⟨stop, rest, hreads, fun _ => hnil⟩
  · exact ⟨stop, rest, hreads, fun hnone => nomatch hnone.symm.trans hfault⟩

/-- A text that is read as a whole has these tokens and no fault. -/
theorem ofText_of_reads {text : String} (h : Reads 0 text.toList tokens stop []) :
    (ofText text).tokens = tokens ∧ (ofText text).fault = none := by
  have hscan : tokensFrom 0 [] text.toList = (tokens, none) := by
    rw [h.tokensFrom_eq [], tokensFrom, List.append_nil, List.reverse_reverse]
  exact ⟨congrArg Prod.fst hscan, congrArg Prod.snd hscan⟩

/-- Each token is read where some rest of the text starts, and its span is what it takes there. -/
theorem Reads.mem (h : Reads offset cs tokens stop rest) {token : Token} (hmem : token ∈ tokens) :
    ∃ front chars back, cs = front ++ (chars ++ back) ∧
      Token.read? (chars ++ back) = some (token.kind, chars, back) ∧
      token.text = String.ofList chars ∧
      token.span = ⟨offset + width front, offset + width front + width chars⟩ := by
  induction h with
  | done => nomatch hmem
  | @blank offset stop c cs rest tokens hblank _ ih =>
    obtain ⟨front, chars, back, rfl, hread, htext, hspan⟩ := ih hmem
    refine ⟨c :: front, chars, back, rfl, hread, htext, ?_⟩
    rw [hspan, width_cons, Nat.add_assoc offset]
  | @token offset stop cs chars cs' rest kind tokens hread _ ih =>
    obtain rfl : chars ++ cs' = cs := Token.text_read? hread
    rcases List.mem_cons.mp hmem with rfl | hmem
    · exact ⟨[], chars, cs', rfl, hread, rfl, rfl⟩
    · obtain ⟨front, chars', back, rfl, hread', htext, hspan⟩ := ih hmem
      refine ⟨chars ++ front, chars', back, (List.append_assoc ..).symm, hread', htext, ?_⟩
      rw [hspan, width_append, Nat.add_assoc offset]

section OfText

variable {text : String} {token : Token} (hmem : token ∈ (ofText text).tokens)
include hmem

/-- The text of a token is what stands under its span. -/
theorem cuts_of_mem : token.span.Cuts text token.text := by
  obtain ⟨stop, rest, hreads, -⟩ := reads_ofText text
  obtain ⟨front, chars, back, htext, -, hchars, hspan⟩ := hreads.mem hmem
  rw [hspan, hchars, Nat.zero_add]
  exact Span.cuts_of_toList htext

theorem kind_ne_finish_of_mem : token.kind ≠ .finish := by
  obtain ⟨stop, rest, hreads, -⟩ := reads_ofText text
  obtain ⟨front, chars, back, -, hread, -, -⟩ := hreads.mem hmem
  exact Token.kind_ne_finish_of_read? hread

/-- The text of a number token is a literal. -/
theorem isLiteral_of_mem (kind : token.kind = .number) : Numeral.IsLiteral token.text := by
  obtain ⟨stop, rest, hreads, -⟩ := reads_ofText text
  obtain ⟨front, chars, back, -, hread, hchars, -⟩ := hreads.mem hmem
  rw [kind] at hread
  obtain ⟨n, rfl, hn⟩ := Token.numeral_of_read? hread
  rw [hchars]
  exact Numeral.isLiteral_of_read? hn

end OfText

end Scan

end Calculator

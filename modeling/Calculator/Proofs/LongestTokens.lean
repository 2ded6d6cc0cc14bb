import Calculator.Proofs.Alphabet
import Calculator.Proofs.Excerpt
import Calculator.Proofs.Spelling

/-!
# The longest tokens of a text

Which characters are a token is said here without a reader: an operator or a parenthesis is its
symbol, and a number is a mantissa with an exponent or without one. A scan takes the longest token
wherever one starts, passes over blanks only, and gives up at the first character with which no
token starts.

* `Numeral.IsNumber`: the forms of a number; `Numeral.isNumber_iff`: they are the texts of numerals.
* `Token.read?_eq_some_iff`: what is read off the front of a text is the longest token there.
* `Scan.Tokenises`: what is asked of the tokens of a text and of its fault.
* `Scan.tokenises_iff`: the scan meets this, and nothing else does.
-/

namespace Calculator

open Text

/-! ## The forms of tokens -/

namespace Numeral

/-- One digit or more. -/
def IsDigits (cs : List Char) : Prop := cs ≠ [] ∧ ∀ c ∈ cs, c.isDigit = true

/-- Digits, with a point behind them, among them, in front of them or nowhere. -/
inductive IsMantissa : List Char → Prop where
  | plain {digits : List Char} (h : IsDigits digits) : IsMantissa digits
  | behind {whole : List Char} (h : IsDigits whole) : IsMantissa (whole ++ ['.'])
  | among {whole fraction : List Char} (h : IsDigits whole) (h' : IsDigits fraction) :
    IsMantissa (whole ++ '.' :: fraction)
  | inFront {fraction : List Char} (h : IsDigits fraction) : IsMantissa ('.' :: fraction)

/-- A mark, a sign or none, and digits. -/
inductive IsExponent : List Char → Prop where
  | intro {mark : Char} {sign digits : List Char} (hmark : mark = 'e' ∨ mark = 'E')
    (hsign : sign = [] ∨ sign = ['+'] ∨ sign = ['-']) (hdigits : IsDigits digits) :
    IsExponent (mark :: (sign ++ digits))

/-- A mantissa, with an exponent or without one. -/
def IsNumber (cs : List Char) : Prop :=
  ∃ mantissa exponent, cs = mantissa ++ exponent ∧ IsMantissa mantissa ∧
    (exponent = [] ∨ IsExponent exponent)

/-- The sign of an exponent is written as a plus, a minus or nothing. -/
theorem exists_signText_iff {cs : List Char} :
    (∃ sign, signText sign = cs) ↔ cs = [] ∨ cs = ['+'] ∨ cs = ['-'] := by
  constructor
  · rintro ⟨_ | _ | _, rfl⟩
    · exact .inl rfl
    · exact .inr (.inl rfl)
    · exact .inr (.inr rfl)
  · rintro (rfl | rfl | rfl)
    · exact ⟨none, rfl⟩
    · exact ⟨some .plus, rfl⟩
    · exact ⟨some .minus, rfl⟩

theorem isExponent_iff {cs : List Char} :
    IsExponent cs ↔ ∃ e : Exponent, e.WellFormed ∧ e.text = cs := by
  constructor
  · rintro ⟨hmark, hsign, hne, hdigits⟩
    obtain ⟨sign, rfl⟩ := exists_signText_iff.mpr hsign
    exact ⟨⟨_, sign, _⟩, ⟨hmark, hdigits, hne⟩, rfl⟩
  · rintro ⟨e, h, rfl⟩
    exact .intro h.mark (exists_signText_iff.mp ⟨e.sign, rfl⟩) ⟨h.ne_nil, h.digits⟩

/-- The mantissas are the digits and points of numerals. -/
theorem isMantissa_iff {cs : List Char} : IsMantissa cs ↔
    ∃ whole fraction, (∀ c ∈ whole, c.isDigit = true) ∧ (∀ c ∈ fraction.getD [], c.isDigit = true) ∧
      (whole ≠ [] ∨ fraction.getD [] ≠ []) ∧ whole ++ fractionText fraction = cs := by
  constructor
  · rintro (⟨h⟩ | ⟨h⟩ | ⟨h, h'⟩ | ⟨h⟩)
    · exact ⟨cs, none, h.2, nofun, .inl h.1, List.append_nil cs⟩
    · exact ⟨_, some [], h.2, nofun, .inl h.1, rfl⟩
    · exact ⟨_, some _, h.2, h'.2, .inl h.1, rfl⟩
    · exact ⟨[], some _, nofun, h.2, .inr h.1, rfl⟩
  · rintro ⟨whole, fraction, hwhole, hfraction, hne, rfl⟩
    cases fraction with
    | none =>
      rw [fractionText, Option.map_none, Option.getD_none, List.append_nil]
      exact .plain ⟨hne.resolve_right (· rfl), hwhole⟩
    | some digits =>
      by_cases hw : whole = []
      · subst hw
        exact .inFront ⟨hne.resolve_left (· rfl), hfraction⟩
      · by_cases hd : digits = []
        · subst hd
          exact .behind ⟨hw, hwhole⟩
        · exact .among ⟨hw, hwhole⟩ ⟨hd, hfraction⟩

/-- The forms of a number are the texts of well-formed numerals. -/
theorem isNumber_iff {cs : List Char} :
    IsNumber cs ↔ ∃ n : Numeral, n.WellFormed ∧ n.text = cs := by
  constructor
  · rintro ⟨mantissa, exponent, rfl, hmantissa, hexponent⟩
    obtain ⟨whole, fraction, hwhole, hfraction, hne, rfl⟩ := isMantissa_iff.mp hmantissa
    rcases hexponent with rfl | hexponent
    · exact ⟨⟨whole, fraction, none⟩, ⟨hwhole, hfraction, hne, nofun⟩, rfl⟩
    · obtain ⟨e, he, rfl⟩ := isExponent_iff.mp hexponent
      refine ⟨⟨whole, fraction, some e⟩, ⟨hwhole, hfraction, hne, fun e' he' => ?_⟩, rfl⟩
      obtain rfl := Option.some.inj he'
      exact he
  · rintro ⟨n, h, rfl⟩
    refine ⟨_, _, rfl, isMantissa_iff.mpr ⟨_, _, h.whole, h.fraction, h.ne_nil, rfl⟩, ?_⟩
    cases he : n.exponent with
    | none => exact .inl rfl
    | some e => exact .inr (isExponent_iff.mpr ⟨e, h.exponent e he, rfl⟩)

/-- A number is a literal. -/
theorem IsNumber.isLiteral {cs : List Char} (h : IsNumber cs) : IsLiteral (String.ofList cs) := by
  obtain ⟨n, hn, rfl⟩ := isNumber_iff.mp h
  have hread := read?_text_append hn ends_nil
  rw [List.append_nil] at hread
  exact isLiteral_of_read? hread

end Numeral

namespace Token

variable {kind kind' : Kind} {chars chars' cs rest : List Char}

/-- These characters are a token of the kind. -/
inductive Form : Kind → List Char → Prop where
  | symbol {kind : Kind} {symbol : String} (h : kind.symbol? = some symbol) :
    Form kind symbol.toList
  | number {chars : List Char} (h : Numeral.IsNumber chars) : Form .number chars

/-- Of all tokens at the front of the text, `chars` is the longest one. -/
structure Longest (kind : Kind) (chars cs : List Char) : Prop where
  form : Form kind chars
  front : chars <+: cs
  longest : ∀ kind' chars', Form kind' chars' → chars' <+: cs → chars'.length ≤ chars.length

/-- A token that stands alone is read as a whole. -/
theorem Form.read?_eq (h : Form kind chars) : read? chars = some (kind, chars, []) := by
  cases h with
  | symbol h => cases kind <;> cases h <;> rfl
  | number h =>
    have hread := read?_literal h.isLiteral Numeral.ends_nil
    rwa [String.toList_ofList, List.append_nil] at hread

theorem form_of_read? (h : read? cs = some (kind, chars, rest)) : Form kind chars := by
  fun_cases read? cs with
  | case1 cs =>
    simp only [read?, Option.some.injEq, Prod.mk.injEq] at h
    obtain ⟨rfl, rfl, -⟩ := h
    have hsymbol : Kind.symbol? .starStar = some "**" := rfl
    exact .symbol hsymbol
  | case2 => cases h
  | case3 c cs hstar k hk =>
    simp only [read?, hk, Option.some.injEq, Prod.mk.injEq] at h
    obtain ⟨rfl, rfl, -⟩ := h
    have hform := Form.symbol (Kind.symbol?_of_ofChar? hk)
    rwa [String.toList_ofList] at hform
  | case4 c cs hstar hk =>
    simp only [read?, hk, Option.map_eq_some_iff, Prod.mk.injEq] at h
    obtain ⟨⟨n, r⟩, hn, rfl, rfl, -⟩ := h
    exact .number (Numeral.isNumber_iff.mpr ⟨n, Numeral.wellFormed_of_read? hn, rfl⟩)

/-- Where a token stands, whatever is behind it, one starts. -/
theorem Form.starts_append (h : Form kind chars) (more : List Char) : Starts (chars ++ more) := by
  have hstarts : Starts chars :=
    not_not.mp fun hnot => nomatch h.read?_eq.symm.trans (read?_eq_none_iff.mpr hnot)
  cases chars with
  | nil => exact hstarts.elim
  | cons c cs =>
    refine hstarts.imp_right (Or.imp_right (And.imp_right fun ⟨d, hd, hdigit⟩ => ⟨d, ?_, hdigit⟩))
    show d ∈ (cs ++ more).head?
    rw [List.head?_append, Option.mem_def.mp hd]
    rfl

/-- Nothing is read exactly where no token stands. -/
theorem read?_eq_none_iff_forall :
    read? cs = none ↔ ∀ kind chars, Form kind chars → ¬ chars <+: cs := by
  constructor
  · rintro h kind chars hform ⟨more, rfl⟩
    exact read?_eq_none_iff.mp h (hform.starts_append more)
  · intro h
    cases hread : read? cs with
    | none => rfl
    | some found =>
      obtain ⟨kind, chars, rest⟩ := found
      exact absurd ⟨rest, text_read? hread⟩ (h kind chars (form_of_read? hread))

/-- No token at the front is longer than the one that is read: cut off behind the longer one, the
text is read as this one. -/
theorem longest_of_read? (h : read? cs = some (kind, chars, rest)) : Longest kind chars cs := by
  refine ⟨form_of_read? h, ⟨rest, text_read? h⟩, ?_⟩
  rintro kind' chars' hform ⟨more, rfl⟩
  refine Nat.le_of_not_lt fun hlt => ?_
  have htext := text_read? h
  rcases List.append_eq_append_iff.mp htext with ⟨longer, rfl, rfl⟩ | ⟨more', rfl, -⟩
  · have hcut := (read?_cut h).symm.trans hform.read?_eq
    obtain rfl : longer = [] := (Prod.mk.inj (Prod.mk.inj (Option.some.inj hcut)).2).2
    rw [List.append_nil] at hlt
    exact Nat.lt_irrefl _ hlt
  · rw [List.length_append] at hlt
    omega

/-- What is read is the longest token at the front. -/
theorem read?_eq_some_iff :
    read? cs = some (kind, chars, rest) ↔ Longest kind chars cs ∧ chars ++ rest = cs := by
  refine ⟨fun h => ⟨longest_of_read? h, text_read? h⟩, fun ⟨h, hrest⟩ => ?_⟩
  cases hread : read? cs with
  | none => exact absurd h.front (read?_eq_none_iff_forall.mp hread kind chars h.form)
  | some found =>
    obtain ⟨kind', chars', rest'⟩ := found
    have h' := longest_of_read? hread
    have hlength : chars.length = chars'.length :=
      Nat.le_antisymm (h'.longest _ _ h.form h.front) (h.longest _ _ h'.form h'.front)
    obtain ⟨rfl, rfl⟩ := List.append_inj (hrest.trans (text_read? hread).symm) hlength
    obtain ⟨rfl, -⟩ := Prod.mk.inj (Option.some.inj (h.form.read?_eq.symm.trans h'.form.read?_eq))
    rfl

/-- Two stars are one token. -/
theorem Longest.eq_starStar (h : Longest kind chars ('*' :: '*' :: cs)) : kind = .starStar := by
  obtain ⟨more, hmore⟩ := h.front
  exact (Prod.mk.inj (Option.some.inj (read?_eq_some_iff.mpr ⟨h, hmore⟩))).1.symm

end Token

/-! ## The tokens of a text -/

namespace Scan

variable {offset : Nat} {c : Char} {cs chars rest : List Char} {tokens : List Token}
  {fault : Option Report} {kind : Token.Kind}

/-- The character at `offset` is blank or stands in a token. -/
def Covered (tokens : List Token) (offset : Nat) (c : Char) : Prop :=
  isBlank c = true ∨ ∃ token ∈ tokens, token.span.start ≤ offset ∧ offset < token.span.stop

/-- What is asked of the tokens and the fault of the characters `cs`, which stand at `offset`. -/
structure Tokenises (offset : Nat) (cs : List Char) (tokens : List Token)
    (fault : Option Report) : Prop where
  /-- Each token is the longest one where it stands, and two stars are never parted. -/
  longest : ∀ token ∈ tokens, ∃ front chars back, cs = front ++ (chars ++ back) ∧
    Token.Longest token.kind chars (chars ++ back) ∧
    (['*', '*'] <+: chars ++ back → token.kind = .starStar) ∧ token.text = String.ofList chars ∧
    token.span = ⟨offset + width front, offset + width front + width chars⟩
  nonempty : ∀ token ∈ tokens, token.span.start < token.span.stop
  ordered : tokens.Pairwise fun a b => a.span.stop ≤ b.span.start
  /-- In front of the fault, all that is in no token is blank. -/
  covered : ∀ front c back, cs = front ++ c :: back →
    (∀ report ∈ fault, offset + width front < report.span.start) →
      Covered tokens (offset + width front) c
  /-- The fault is a character behind the tokens, no blank, at which no token stands. -/
  fault_eq : ∀ report ∈ fault, ∃ front c back, cs = front ++ c :: back ∧
    report = ⟨.unexpectedChar c, ⟨offset + width front, offset + width front + c.utf8Size⟩⟩ ∧
    isBlank c = false ∧ (∀ kind chars, Token.Form kind chars → ¬ chars <+: c :: back) ∧
    ∀ token ∈ tokens, token.span.stop ≤ offset + width front

/-- What is read ends behind its tokens. -/
theorem Reads.span_stop_le {stop : Nat} (h : Reads offset cs tokens stop rest) :
    offset ≤ stop ∧ ∀ token ∈ tokens, token.span.stop ≤ stop := by
  induction h with
  | done => exact ⟨Nat.le_refl _, nofun⟩
  | blank hblank _ ih => exact ⟨Nat.le_of_add_right_le ih.1, ih.2⟩
  | token hread _ ih =>
    exact ⟨Nat.le_of_add_right_le ih.1, List.forall_mem_cons.mpr ⟨ih.1, ih.2⟩⟩

theorem Reads.span_start_lt {stop : Nat} (h : Reads offset cs tokens stop rest) {token : Token}
    (hmem : token ∈ tokens) : token.span.start < token.span.stop := by
  obtain ⟨front, chars, back, -, hread, -, hspan⟩ := h.mem hmem
  have hpos := List.length_pos_iff.mpr (Token.text_ne_nil_of_read? hread)
  rw [hspan]
  exact Nat.lt_add_of_pos_right (Nat.lt_of_lt_of_le hpos (length_le_width chars))

/-- The scan meets what is asked. -/
theorem tokenises_ofText (text : String) :
    Tokenises 0 text.toList (ofText text).tokens (ofText text).fault := by
  obtain ⟨stop, rest, hreads, hend⟩ := reads_or_fault text
  obtain ⟨read, htext, hstop⟩ := hreads.eq_append
  refine ⟨fun token hmem => ?_, fun token => hreads.span_start_lt, hreads.ordered.1.pairwise,
    fun front c back hc hbehind => ?_, fun report hreport => ?_⟩
  · obtain ⟨front, chars, back, hc, hread, hchars, hspan⟩ := hreads.mem hmem
    have hlongest := Token.longest_of_read? hread
    refine ⟨front, chars, back, hc, hlongest, ?_, hchars, hspan⟩
    rintro ⟨more, hmore⟩
    rw [← hmore] at hlongest
    exact hlongest.eq_starStar
  · have hlt : 0 + width front < stop := by
      rcases hend with ⟨-, rfl⟩ | ⟨c', back', rfl, -, -, hfault⟩
      · have hpos := c.utf8Size_pos
        rw [hstop, ← List.append_nil read, ← htext, hc, width_append, width_cons]
        omega
      · exact hbehind _ hfault
    exact (hreads.mem_char hc hlt).imp_right fun ⟨token, hmem, hstart, hstop, _⟩ =>
      ⟨token, hmem, hstart, hstop⟩
  · rcases hend with ⟨hfault, -⟩ | ⟨c, back, rfl, hblank, hread, hfault⟩
    · nomatch hfault.symm.trans hreport
    · obtain rfl := Option.some.inj (hfault.symm.trans hreport)
      subst hstop
      exact ⟨read, c, back, htext, rfl, hblank, Token.read?_eq_none_iff_forall.mp hread,
        hreads.span_stop_le.2⟩

/-! ## Nothing else meets it -/

namespace Tokenises

/-- Behind some characters, the same is asked of the tokens behind them. -/
theorem drop {piece : List Char} {passed behind : List Token}
    (h : Tokenises offset (piece ++ rest) (passed ++ behind) fault)
    (hpassed : ∀ token ∈ passed, token.span.stop ≤ offset + width piece)
    (hbehind : ∀ token ∈ behind, offset + width piece ≤ token.span.start)
    (hfault : ∀ report ∈ fault, offset + width piece ≤ report.span.start) :
    Tokenises (offset + width piece) rest behind fault := by
  have hwidth (front : List Char) :
      offset + width (piece ++ front) = offset + width piece + width front := by
    rw [width_append, Nat.add_assoc]
  refine ⟨fun token hmem => ?_, fun token hmem => h.nonempty token (List.mem_append_right _ hmem),
    (List.pairwise_append.mp h.ordered).2.1, fun front c back hrest hlt => ?_,
    fun report hreport => ?_⟩
  · obtain ⟨front, chars, back, hcs, hlongest, hstars, hchars, hspan⟩ :=
      h.longest token (List.mem_append_right _ hmem)
    have hle := hbehind token hmem
    rw [hspan] at hle
    obtain ⟨more, rfl, rfl⟩ := exists_append_of_width_le hcs (Nat.le_of_add_le_add_left hle)
    rw [hwidth] at hspan
    exact ⟨more, chars, back, rfl, hlongest, hstars, hchars, hspan⟩
  · have hcovered := h.covered (piece ++ front) c back (by rw [hrest, List.append_assoc])
    rw [hwidth] at hcovered
    refine (hcovered hlt).imp_right fun ⟨token, hmem, hin⟩ => ⟨token, ?_, hin⟩
    rcases List.mem_append.mp hmem with hmem | hmem
    · have := hpassed token hmem
      omega
    · exact hmem
  · obtain ⟨front, c, back, hcs, hspan, hblank, hnone, hstop⟩ := h.fault_eq report hreport
    have hle := hfault report hreport
    rw [hspan] at hle
    obtain ⟨more, rfl, rfl⟩ := exists_append_of_width_le hcs (Nat.le_of_add_le_add_left hle)
    rw [hwidth] at hspan hstop
    exact ⟨more, c, back, rfl, hspan, hblank, hnone,
      fun token hmem => hstop token (List.mem_append_right _ hmem)⟩

/-- A token that starts at `offset` is the one that is read there. -/
theorem read?_eq {token : Token} (h : Tokenises offset cs tokens fault) (hmem : token ∈ tokens)
    (hstart : token.span.start ≤ offset) : ∃ chars rest,
      Token.read? cs = some (token.kind, chars, rest) ∧
      token = ⟨token.kind, String.ofList chars, ⟨offset, offset + width chars⟩⟩ := by
  obtain ⟨front, chars, back, hcs, hlongest, -, hchars, hspan⟩ := h.longest token hmem
  rw [hspan] at hstart
  obtain rfl := eq_nil_of_width_le hstart
  refine ⟨chars, back, hcs ▸ Token.read?_eq_some_iff.mpr ⟨hlongest, rfl⟩, ?_⟩
  rw [← hchars, ← Nat.add_zero offset, ← width_nil, ← hspan]

/-- There is nothing in an empty text. -/
theorem of_nil (h : Tokenises offset [] tokens fault) : tokens = [] ∧ fault = none := by
  constructor
  · refine List.eq_nil_iff_forall_not_mem.mpr fun token hmem => ?_
    obtain ⟨front, chars, back, hcs, hlongest, -⟩ := h.longest token hmem
    have hnil := (List.append_eq_nil_iff.mp hcs.symm).2
    rw [hnil] at hlongest
    nomatch Token.read?_eq_some_iff.mpr ⟨hlongest, hnil⟩
  · refine Option.eq_none_iff_forall_not_mem.mpr fun report hreport => ?_
    obtain ⟨front, c, back, hcs, -⟩ := h.fault_eq report hreport
    cases front <;> nomatch hcs

/-- A blank is passed over. -/
theorem of_blank (h : Tokenises offset (c :: cs) tokens fault) (hblank : isBlank c = true) :
    Tokenises (offset + c.utf8Size) cs tokens fault := by
  -- What starts behind the blank starts behind all of it.
  have hbehind {front back : List Char} (hcs : c :: cs = front ++ back) (hne : front ≠ []) :
      offset + width [c] ≤ offset + width front := by
    obtain ⟨first, front, rfl⟩ := List.exists_cons_of_ne_nil hne
    obtain ⟨rfl, -⟩ := List.cons.inj hcs
    simp only [width_cons, width_nil]
    omega
  have hsplit : Tokenises offset ([c] ++ cs) ([] ++ tokens) fault := h
  refine hsplit.drop nofun (fun token hmem => ?_) fun report hreport => ?_
  · obtain ⟨front, chars, back, hcs, -, -, -, hspan⟩ := h.longest token hmem
    rw [hspan]
    refine hbehind hcs fun hnil => ?_
    obtain ⟨_, _, hread, -⟩ := h.read?_eq hmem (by rw [hspan, hnil]; exact Nat.le_refl _)
    nomatch hblank.symm.trans (Token.not_isBlank_of_read? hread c rfl)
  · obtain ⟨front, c', back, hcs, rfl, hblank', -⟩ := h.fault_eq report hreport
    refine hbehind hcs ?_
    rintro rfl
    obtain ⟨rfl, -⟩ := List.cons.inj hcs
    nomatch hblank.symm.trans hblank'

/-- A character that is no blank, and with which no token starts, is the fault, and no token stands
behind it. -/
theorem of_none (h : Tokenises offset (c :: cs) tokens fault) (hblank : isBlank c = false)
    (hread : Token.read? (c :: cs) = none) : tokens = [] ∧
      fault = some ⟨.unexpectedChar c, ⟨offset, offset + c.utf8Size⟩⟩ := by
  have hstart {token : Token} (hmem : token ∈ tokens) : offset < token.span.start :=
    Nat.lt_of_not_le fun hle => by
      obtain ⟨chars, rest, hsome, -⟩ := h.read?_eq hmem hle
      nomatch hread.symm.trans hsome
  have hfault : ∃ report ∈ fault, report.span.start ≤ offset := by
    refine Decidable.byContradiction fun hnone => ?_
    rcases h.covered [] c cs rfl fun report hreport =>
        Nat.lt_of_not_le fun hle => hnone ⟨report, hreport, hle⟩ with hblank' | ⟨token, hmem, hin⟩
    · nomatch hblank.symm.trans hblank'
    · exact absurd hin.1 (Nat.not_le_of_lt (hstart hmem))
  obtain ⟨report, hreport, hle⟩ := hfault
  obtain ⟨front, c', back, hcs, rfl, -, -, hstop⟩ := h.fault_eq report hreport
  obtain rfl := eq_nil_of_width_le hle
  obtain ⟨rfl, -⟩ := List.cons.inj hcs
  refine ⟨List.eq_nil_iff_forall_not_mem.mpr fun token hmem => ?_, hreport⟩
  have hlt := Nat.lt_trans (hstart hmem) (h.nonempty token hmem)
  exact Nat.not_le_of_lt hlt (hstop token hmem)

/-- The token that is read is the first one. -/
theorem of_some (h : Tokenises offset cs tokens fault)
    (hread : Token.read? cs = some (kind, chars, rest)) : ∃ behind,
      tokens = ⟨kind, String.ofList chars, ⟨offset, offset + width chars⟩⟩ :: behind ∧
        Tokenises (offset + width chars) rest behind fault := by
  obtain ⟨hlongest, rfl⟩ := Token.read?_eq_some_iff.mp hread
  obtain ⟨c, more, hchars⟩ := List.exists_cons_of_ne_nil (Token.text_ne_nil_of_read? hread)
  have hblank : isBlank c = false :=
    Token.not_isBlank_of_read? hread c (by rw [hchars]; rfl)
  -- The first character is covered, as no fault stands there.
  obtain ⟨token, hmem, hstart, -⟩ : ∃ token ∈ tokens,
      token.span.start ≤ offset + width [] ∧ offset + width [] < token.span.stop := by
    have hcs : chars ++ rest = [] ++ c :: (more ++ rest) := by
      rw [hchars]
      rfl
    refine (h.covered [] c (more ++ rest) hcs fun report hreport => ?_).resolve_left
      (by rw [hblank]; exact Bool.false_ne_true)
    obtain ⟨front, c', back, hcs, rfl, -, hnone, -⟩ := h.fault_eq report hreport
    refine Nat.lt_of_not_le fun hle => ?_
    obtain rfl := eq_nil_of_width_le hle
    exact hnone kind chars hlongest.form ⟨rest, hcs⟩
  obtain ⟨chars', rest', hread', htoken⟩ := h.read?_eq hmem hstart
  obtain ⟨hkind, hrest⟩ := Prod.mk.inj (Option.some.inj (hread.symm.trans hread'))
  obtain ⟨rfl, rfl⟩ := Prod.mk.inj hrest
  rw [← hkind] at htoken
  subst htoken
  cases tokens with
  | nil => nomatch hmem
  | cons first behind =>
    obtain ⟨hfirst, -⟩ := List.pairwise_cons.mp h.ordered
    rcases List.mem_cons.mp hmem with rfl | hmem'
    · have hsplit : Tokenises offset (chars ++ rest) ([_] ++ behind) fault := h
      refine ⟨behind, rfl, hsplit.drop ?_ hfirst fun report hreport => ?_⟩
      · exact List.forall_mem_singleton.mpr (Nat.le_refl _)
      · obtain ⟨_, _, _, _, rfl, _, _, hstop⟩ := h.fault_eq report hreport
        exact hstop _ hmem
    · -- Another token in front of it would end at the latest where this one starts.
      have hlt := h.nonempty first List.mem_cons_self
      obtain ⟨front, _, _, _, _, _, _, hspan⟩ := h.longest first List.mem_cons_self
      have hle : first.span.stop ≤ offset := hfirst _ hmem'
      rw [hspan] at hlt hle
      dsimp only at hlt hle
      omega

end Tokenises

/-- What meets what is asked is what the scan finds. -/
theorem Tokenises.tokensFrom_eq (h : Tokenises offset cs tokens fault) (found : List Token) :
    tokensFrom offset found cs = (found.reverse ++ tokens, fault) := by
  fun_induction tokensFrom offset found cs generalizing tokens with
  | case1 offset found =>
    obtain ⟨rfl, rfl⟩ := h.of_nil
    rw [List.append_nil]
  | case2 offset found c cs hblank ih => exact ih (h.of_blank hblank)
  | case3 offset found c cs hblank hread =>
    obtain ⟨rfl, rfl⟩ := h.of_none (Bool.eq_false_iff.mpr hblank) hread
    rw [List.append_nil]
  | case4 offset found c cs hblank kind chars rest hread text stop hlt =>
    rename_i ih
    obtain ⟨behind, rfl, hbehind⟩ := h.of_some hread
    have hstop : stop = offset + width chars := congrArg (offset + ·) (utf8ByteSize_ofList chars)
    rw [ih (hstop ▸ hbehind), hstop, List.reverse_cons, List.append_assoc]
    rfl

/-- The scan of a text finds exactly the longest tokens. What is asked of the tokens and of the
fault is met by those of the scan, and by no others. There is no fault exactly if every character is
blank or stands in a token. Behind the tokens stands the end of the text, which is no piece of
it. -/
theorem tokenises_iff (text : String) :
    (∀ tokens fault, Tokenises 0 text.toList tokens fault ↔
      (ofText text).tokens = tokens ∧ (ofText text).fault = fault) ∧
    ((ofText text).fault = none ↔ ∀ front c back, text.toList = front ++ c :: back →
      Covered (ofText text).tokens (width front) c) ∧
    (ofText text).tokensToEnd = (ofText text).tokens ++
      [⟨.finish, "", ⟨text.utf8ByteSize, text.utf8ByteSize⟩⟩] ∧
    ∀ token ∈ (ofText text).tokens, token.kind ≠ .finish := by
  have hscan := tokenises_ofText text
  refine ⟨fun tokens fault => ⟨fun h => ?_, ?_⟩, ⟨fun hnone front c back htext => ?_, fun h => ?_⟩,
    rfl, fun token => kind_ne_finish_of_mem⟩
  · exact Prod.mk.inj (h.tokensFrom_eq [])
  · rintro ⟨rfl, rfl⟩
    exact hscan
  · rw [← Nat.zero_add (width front)]
    refine hscan.covered front c back htext ?_
    rw [hnone]
    nofun
  · refine Option.eq_none_iff_forall_not_mem.mpr fun report hreport => ?_
    obtain ⟨front, c, back, htext, -, hblank, -, hstop⟩ := hscan.fault_eq report hreport
    rcases h front c back htext with hblank' | ⟨token, hmem, -, hlt⟩
    · nomatch hblank.symm.trans hblank'
    · have := hstop token hmem
      omega

/-- An exponent without digits is given back, and its mark starts no token. -/
example : ((ofText "2 **.5e+").tokens.map (·.text), (ofText "2 **.5e+").fault) =
    (["2", "**", ".5"], some ⟨.unexpectedChar 'e', ⟨6, 7⟩⟩) := by decide +kernel

end Scan

end Calculator

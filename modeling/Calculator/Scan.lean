import Calculator.Numeral
import Calculator.Report
import Calculator.Text.Blank

/-!
# Scanning a text into tokens

`Scan.ofText` splits a text into its tokens, each the longest one that starts where it stands.
Blanks may stand anywhere between tokens. The first character with which no token starts ends the
scan; the tokens before it are kept and the fault is reported.

* `Token.text_read?`: the token read and the rest are the text.
-/

namespace Calculator

namespace Token

/-- The kind of a token that is spelled with one character. -/
def Kind.ofChar? : Char → Option Kind
  | '+' => some plus
  | '-' => some minus
  | '*' => some star
  | '/' => some slash
  | '%' => some percent
  | '^' => some caret
  | '(' => some openParen
  | ')' => some closeParen
  | _ => none

/-- Splits the longest token off the front of a text: its kind, its characters and the rest. -/
def read? : List Char → Option (Kind × List Char × List Char)
  | '*' :: '*' :: cs => some (.starStar, ['*', '*'], cs)
  | [] => none
  | c :: cs =>
    match Kind.ofChar? c with
    | some kind => some (kind, [c], cs)
    | none => (Numeral.read? (c :: cs)).map fun r => (.number, r.1.text, r.2)

theorem text_read? {cs text rest : List Char} {kind : Kind}
    (h : read? cs = some (kind, text, rest)) : text ++ rest = cs := by
  fun_cases read? cs with
  | case1 cs =>
    simp only [read?, Option.some.injEq, Prod.mk.injEq] at h
    obtain ⟨-, rfl, rfl⟩ := h
    rfl
  | case2 => simp [read?] at h
  | case3 c cs hstar k hk =>
    simp only [read?, hk, Option.some.injEq, Prod.mk.injEq] at h
    obtain ⟨-, rfl, rfl⟩ := h
    rfl
  | case4 c cs hstar hk =>
    simp only [read?, hk, Option.map_eq_some_iff, Prod.mk.injEq] at h
    obtain ⟨⟨n, r⟩, hn, -, rfl, rfl⟩ := h
    exact Numeral.text_read? hn

theorem text_ne_nil_of_read? {cs text rest : List Char} {kind : Kind}
    (h : read? cs = some (kind, text, rest)) : text ≠ [] := by
  fun_cases read? cs with
  | case1 cs =>
    simp only [read?, Option.some.injEq, Prod.mk.injEq] at h
    obtain ⟨-, rfl, -⟩ := h
    simp
  | case2 => simp [read?] at h
  | case3 c cs hstar k hk =>
    simp only [read?, hk, Option.some.injEq, Prod.mk.injEq] at h
    obtain ⟨-, rfl, -⟩ := h
    simp
  | case4 c cs hstar hk =>
    simp only [read?, hk, Option.map_eq_some_iff, Prod.mk.injEq] at h
    obtain ⟨⟨n, r⟩, hn, -, rfl, -⟩ := h
    exact Numeral.text_ne_nil_of_read? hn

theorem length_lt_of_read? {cs text rest : List Char} {kind : Kind}
    (h : read? cs = some (kind, text, rest)) : rest.length < cs.length := by
  have hpos := List.length_pos_iff.mpr (text_ne_nil_of_read? h)
  rw [← text_read? h, List.length_append]
  omega

end Token

/-- What a scan of a text finds. -/
structure Scan where
  /-- The tokens, in order. -/
  tokens : List Token
  /-- The length of the text in bytes, which is where the end of the text stands. -/
  stop : Nat
  /-- The character at which the scan gave up, if it did. -/
  fault : Option Report
deriving Repr

namespace Scan

/-- The tokens of `cs`, whose first character stands at `offset`, behind those in `found` (the
last one first), and the fault that ended the scan. -/
def tokensFrom (offset : Nat) (found : List Token) : List Char → List Token × Option Report
  | [] => (found.reverse, none)
  | c :: cs =>
    if Text.isBlank c then tokensFrom (offset + c.utf8Size) found cs
    else
      match h : Token.read? (c :: cs) with
      | none => (found.reverse, some ⟨.unexpectedChar c, ⟨offset, offset + c.utf8Size⟩⟩)
      | some (kind, chars, rest) =>
        let text := String.ofList chars
        let stop := offset + text.utf8ByteSize
        have := Token.length_lt_of_read? h
        tokensFrom stop (⟨kind, text, ⟨offset, stop⟩⟩ :: found) rest
termination_by cs => cs.length
decreasing_by
  · exact Nat.lt_succ_self _
  · exact this

/-- Scans a text. -/
def ofText (text : String) : Scan :=
  let found := tokensFrom 0 [] text.toList
  ⟨found.1, text.utf8ByteSize, found.2⟩

/-- The tokens with the end of the text behind them. -/
def tokensToEnd (scan : Scan) : List Token := scan.tokens ++ [.finish scan.stop]

end Scan

end Calculator

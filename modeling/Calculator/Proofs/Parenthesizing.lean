import Calculator.Proofs.Composition
import Calculator.Proofs.Excerpt

/-!
# Parentheses around a part

Parentheses around any node of an accepted text, at the two ends of its span, leave the text as it
is: it is accepted with one level more, its tree is the same up to spans, and so is the value of the
tree. The tokens in front of a parenthesis do not go on with it, those behind it stand elsewhere
only, and in the phrase the node becomes an operand, which can stand wherever the node did.

* `Span.parenthesize`: the text with the two characters put in.
* `Scan.Reads.parenthesize`: the tokens of such a text.
* `Limits.parse_parenthesize`: its tree, and the value of the tree.
-/

namespace Calculator

open Text

namespace Text

/-- The characters with `c` put in behind so many bytes. -/
def insertAt (c : Char) : Nat → List Char → List Char
  | 0, cs => c :: cs
  | _ + 1, [] => [c]
  | offset + 1, d :: cs => d :: insertAt c (offset + 1 - d.utf8Size) cs

theorem insertAt_append (c : Char) (front back : List Char) :
    insertAt c (width front) (front ++ back) = front ++ c :: back := by
  induction front with
  | nil => rw [width_nil, insertAt, List.nil_append, List.nil_append]
  | cons d front ih =>
    obtain ⟨size, hsize⟩ := Nat.exists_eq_add_of_lt d.utf8Size_pos
    have hwidth : width (d :: front) = size + width front + 1 := by
      rw [width_cons]
      omega
    have hrest : size + width front + 1 - d.utf8Size = width front := by omega
    rw [hwidth, List.cons_append, insertAt, hrest, ih, List.cons_append]

end Text

/-- The text with parentheses put in where the span starts and where it ends. -/
def Span.parenthesize (span : Span) (text : String) : String :=
  String.ofList (insertAt '(' span.start (insertAt ')' span.stop text.toList))

theorem Span.toList_parenthesize {text : String} {before piece behind : List Char}
    (h : text.toList = before ++ (piece ++ behind)) :
    (parenthesize ⟨width before, width before + width piece⟩ text).toList =
      before ++ '(' :: (piece ++ ')' :: behind) := by
  rw [parenthesize, String.toList_ofList, h, ← width_append, ← List.append_assoc, insertAt_append,
    List.append_assoc, insertAt_append]

example : (⟨2, 5⟩ : Span).parenthesize "2^3^2" = "2^(3^2)" := by decide

namespace Scan

/-- A text in three parts, with parentheses put in around the second one, has the tokens of the
parts, and the parentheses between them. -/
theorem Reads.parenthesize {start stop last : Nat} {before piece behind : List Char}
    {front middle back : List Token} (hbefore : Reads 0 before front start [])
    (hpiece : Reads start piece middle stop []) (hbehind : Reads stop behind back last []) :
    ∃ opened closed : Token, opened.kind = .openParen ∧ closed.kind = .closeParen ∧
      ∃ tokens stop', tokens.map Token.bare =
          (front ++ opened :: (middle ++ closed :: back)).map Token.bare ∧
        Reads 0 (before ++ '(' :: (piece ++ ')' :: behind)) tokens stop' [] := by
  have hopen : Token.read? ('(' :: (piece ++ ')' :: behind)) =
      some (.openParen, ['('], piece ++ ')' :: behind) := rfl
  have hclose : Token.read? (')' :: behind) = some (.closeParen, [')'], behind) := rfl
  have hfront := hbefore.append_paren (.inl rfl) (piece ++ ')' :: behind)
  have hmiddle := (hpiece.append_paren (.inr rfl) behind).shift (width ['('])
  have hback := hbehind.shift (width ['('] + width [')'])
  rw [Nat.add_comm _ start] at hmiddle
  rw [Nat.add_right_comm] at hback
  have hall := hfront.append (.token hopen (hmiddle.append (.token hclose hback)))
  refine ⟨⟨.openParen, String.ofList ['('], .point 0⟩, ⟨.closeParen, String.ofList [')'], .point 0⟩,
    rfl, rfl, _, _, ?_, hall⟩
  simp only [List.map_append, List.map_cons, Token.map_bare_shift]
  rfl

end Scan

namespace Limits

open Grammar

/-- Parentheses around a part change nothing. The text that has them around any node of its tree is
accepted with one level more, its tree is equal to the one before up to spans, and an evaluation
gives both trees the same value, or the same error up to spans, whatever its limit is. -/
theorem parse_parenthesize (limits : Limits) (text : String) (tree : Expr)
    (h : limits.parse text = .ok tree) :
    ∀ part ∈ tree.postorder, ∃ tree',
      ({ limits with nesting := limits.nesting + 1 } : Limits).parse
        (part.span.parenthesize text) = .ok tree' ∧
      tree'.bare = tree.bare ∧
      ∀ limits' : Limits, (limits'.evaluate tree').mapError EvalError.bare =
        (limits'.evaluate tree).mapError EvalError.bare := by
  intro part hpart
  obtain ⟨need, hneed, hlocated⟩ := located_of_parse h
  obtain ⟨stop, rest, hreads, hnil⟩ := Scan.reads_ofText text
  obtain rfl := hnil (parse_eq_ok_iff.mp h).1
  obtain ⟨front, middle, back, hhas⟩ := hlocated.exists_hasPart hpart
  obtain ⟨_, -, hmiddle⟩ := hhas.located
  rw [hhas.tokens_eq] at hreads
  have hspans := (hmiddle.spans (hreads.ordered.1.sublist (by simp))).1
  obtain ⟨before, piece, behind, htext, hspan, hbefore, hpiece, hbehind⟩ := hreads.parts hspans
  obtain ⟨opened, closed, hopen, hclose, tokens, stop', htokens, hall⟩ :=
    hbefore.parenthesize hpiece hbehind
  -- The parentheses make the node an operand.
  obtain ⟨need', hneed', hd⟩ := hhas.enclosed opened closed hopen hclose
  rw [← Span.toList_parenthesize htext, ← hspan] at hall
  obtain ⟨rfl, hfault⟩ := Scan.ofText_of_reads hall
  obtain ⟨tree', hparse, hbare⟩ := exists_parse_of_derives hfault (hd.of_map_bare htokens)
    (show need' ≤ ({ limits with nesting := limits.nesting + 1 } : Limits).nesting from
      Nat.le_trans hneed' (Nat.succ_le_succ hneed))
  exact ⟨tree', hparse, hbare, fun limits' => Expr.eval_bare_eq hbare limits'.depth⟩

/-- The right operand of a power can be put in parentheses, and needs the level that is added. -/
theorem parse_parenthesize_power :
    let part : Expr := .binary .caret ⟨5, 6⟩ (.number "3" ⟨3, 4⟩) (.number "2" ⟨7, 8⟩) ⟨3, 8⟩
    let tree : Expr := .binary .starStar ⟨1, 3⟩ (.number "2" ⟨0, 1⟩) part ⟨0, 8⟩
    ({ nesting := 3 } : Limits).parse "2**3 ^ 2" = .ok tree ∧ part ∈ tree.postorder ∧
      part.span.parenthesize "2**3 ^ 2" = "2**(3 ^ 2)" ∧
      (∀ tree', ({ nesting := 3 } : Limits).parse "2**(3 ^ 2)" ≠ .ok tree') ∧
      ∃ tree', ({ nesting := 4 } : Limits).parse "2**(3 ^ 2)" = .ok tree' ∧
        tree'.bare = tree.bare := by
  intro part tree
  have hparse : ({ nesting := 3 } : Limits).parse "2**3 ^ 2" = .ok tree := by decide +kernel
  have hpart : part ∈ tree.postorder := by decide
  have htext : part.span.parenthesize "2**3 ^ 2" = "2**(3 ^ 2)" := by decide +kernel
  have hlimit : (({ nesting := 3 } : Limits).parse "2**(3 ^ 2)").toOption = none := by
    decide +kernel
  obtain ⟨tree', hparse', hbare, -⟩ := parse_parenthesize _ _ tree hparse part hpart
  rw [htext] at hparse'
  exact ⟨hparse, hpart, htext, fun tree' h => (by rw [h] at hlimit; nomatch hlimit), tree', hparse',
    hbare⟩

end Limits

end Calculator

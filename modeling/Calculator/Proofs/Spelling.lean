import Calculator.Proofs.Grammar.Strength
import Calculator.Proofs.Scan

/-!
# Texts that are scanned as phrases

`Grammar.Spells` joins the scan and the grammar: a text is scanned as the tokens of a phrase,
whatever stands behind it, as long as that does not go on with a number. Each production of the
grammar has a rule for the text that is made in its way.

* `spells_number`, `Spells.group`, `Spells.signed`, `Spells.binary`: the rules of the productions.
* `Spells.weaken`: a phrase is also a phrase of every weaker kind.
-/

namespace Calculator

open Text

namespace Token

/-- A literal is read as a number token. -/
theorem read?_literal {text : String} {rest : List Char} (h : Numeral.IsLiteral text)
    (hrest : Numeral.Ends rest) :
    read? (text.toList ++ rest) = some (.number, text.toList, rest) := by
  obtain ⟨n, htext, hread⟩ := h.read?_append hrest
  obtain ⟨c, cs, hcs, hc⟩ := (Numeral.wellFormed_of_read? hread).head
  rw [← htext, hcs] at hread ⊢
  have hkind := Kind.ofChar?_of_digit_or_point hc
  have hstar : c ≠ '*' := by
    rintro rfl
    nomatch hkind
  rw [List.cons_append] at hread ⊢
  unfold read?
  split
  · next heq => exact absurd (List.cons.inj heq).1 hstar
  · next heq => nomatch heq
  · next c' cs' _ heq =>
    obtain ⟨rfl, rfl⟩ := List.cons.inj heq
    rw [hkind, hread]
    show some (Kind.number, n.text, rest) = _
    rw [hcs]

/-- An operator in front of a space is read as its token. -/
theorem exists_read?_binaryOp (op : BinaryOp) : ∃ kind : Kind, kind.binaryOp? = some op ∧
    ∀ cs, read? (op.symbol.toList ++ ' ' :: cs) = some (kind, op.symbol.toList, ' ' :: cs) := by
  cases op <;> refine ⟨_, ?_, fun cs => rfl⟩ <;> rfl

/-- A sign is read as its token. -/
theorem exists_read?_sign (sign : Sign) : ∃ kind : Kind, kind.sign? = some sign ∧
    ∀ cs, read? (sign.symbol.toList ++ cs) = some (kind, sign.symbol.toList, cs) := by
  cases sign <;> refine ⟨_, ?_, fun cs => rfl⟩ <;> rfl

end Token

namespace Grammar

/-- In front of a text that ends a numeral, `text` is scanned as a phrase with this tree. -/
def Spells (phrase : Phrase) (text : List Char) (e : Expr) (need : Nat) : Prop :=
  ∀ (offset : Nat) (rest : List Char), Numeral.Ends rest →
    ∃ tokens stop, Scan.Reads offset (text ++ rest) tokens stop rest ∧
      Derives phrase tokens e need

variable {phrase : Phrase} {text : List Char} {e : Expr} {need : Nat}

theorem Spells.weaken {weak : Phrase} (h : Spells phrase text e need)
    (hle : weak.strength ≤ phrase.strength) : Spells weak text e need := by
  intro offset rest hrest
  obtain ⟨tokens, stop, hreads, hd⟩ := h offset rest hrest
  exact ⟨tokens, stop, hreads, hd.weaken hle⟩

theorem spells_number {text : String} (h : Numeral.IsLiteral text) :
    Spells .primary text.toList (.number text (.point 0)) 1 := by
  intro offset rest hrest
  refine ⟨_, _, .token (Token.read?_literal h hrest) .done, ?_⟩
  have hd : Derives .primary [⟨.number, text, ⟨offset, offset + width text.toList⟩⟩]
      (.number text (.point 0)) 1 := .number rfl
  rwa [String.ofList_toList]

theorem Spells.group (h : Spells .expression text e need) :
    Spells .primary ('(' :: (text ++ [')'])) e (need + 1) := by
  intro offset rest hrest
  have hends : Numeral.Ends (')' :: rest) := Numeral.ends_cons (by decide)
  have hopen : Token.read? ('(' :: (text ++ ')' :: rest)) =
      some (.openParen, ['('], text ++ ')' :: rest) := rfl
  have hclose : Token.read? (')' :: rest) = some (.closeParen, [')'], rest) := rfl
  obtain ⟨tokens, stop, hreads, hd⟩ := h (offset + width ['(']) _ hends
  have hall := Scan.Reads.token hopen (hreads.append (.token hclose .done))
  rw [List.cons_append, List.append_assoc]
  exact ⟨_, _, hall, .group rfl rfl hd⟩

theorem Spells.signed (sign : Sign) (h : Spells .signed text e need) :
    Spells .signed (sign.symbol.toList ++ text) (.signed sign e (.point 0)) (need + 1) := by
  intro offset rest hrest
  obtain ⟨kind, hkind, hread⟩ := Token.exists_read?_sign sign
  obtain ⟨tokens, stop, hreads, hd⟩ := h (offset + width sign.symbol.toList) rest hrest
  rw [List.append_assoc]
  exact ⟨_, stop, .token (hread _) hreads, .signed (by exact hkind) hd⟩

theorem Spells.binary (op : BinaryOp) {lefts rights : List Char} {left right : Expr}
    {leftNeed rightNeed : Nat} (hleft : Spells (.leftOf op) lefts left leftNeed)
    (hright : Spells (.rightOf op) rights right rightNeed) :
    Spells (.ofOp op) (lefts ++ ' ' :: op.symbol.toList ++ ' ' :: rights)
      (.binary op (.point 0) left right (.point 0)) (max leftNeed (rightNeed + 1)) := by
  intro offset rest hrest
  obtain ⟨kind, hkind, hread⟩ := Token.exists_read?_binaryOp op
  have hends (cs : List Char) : Numeral.Ends (' ' :: cs) := Numeral.ends_cons (by decide)
  have hspace : isBlank ' ' = true := by decide
  obtain ⟨leftTokens, middle, hl, hdl⟩ := hleft offset _ (hends _)
  obtain ⟨rightTokens, stop, hr, hdr⟩ :=
    hright (middle + ' '.utf8Size + width op.symbol.toList + ' '.utf8Size) rest hrest
  have hall := hl.append
    (.blank hspace (.token (hread (rights ++ rest)) (.blank hspace hr)))
  simp only [List.append_assoc, List.cons_append]
  exact ⟨_, stop, hall, .binary (by exact hkind) hdl hdr⟩

end Grammar

end Calculator

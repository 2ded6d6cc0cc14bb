import Calculator.Proofs.EvaluationSpans
import Calculator.Proofs.NestingBound
import Calculator.Proofs.Spelling
import Calculator.Proofs.Truncation

/-!
# Calculating with parts

An accepted text can be put in parentheses and calculated with: the value of the whole comes from
the values of the parts. In parentheses, a text has the tokens that it has by itself, since none of
them goes on with the parenthesis behind it; they are a phrase with the tree of the text, however
weakly its operators bind; and the plain value of the whole tree does not ask how much of it is one
chain.

* `Token.read?_append_paren`, `Scan.Reads.append_paren`: what is read in front of a parenthesis.
* `Scan.Reads.shift`: the tokens of a text that stands elsewhere.
* `Grammar.Derives.of_map_bare`: a phrase is one wherever its tokens stand.
* `Grammar.Derives.spells_group`: an expression in parentheses.
* `Limits.calculate_of_derives`: a calculation gives the plain value of the tree.
* `Limits.calculate_parts`: operators and signs in front of texts in parentheses.
-/

namespace Calculator

open Text

/-! ## In front of a parenthesis -/

namespace Numeral

variable {paren : Char} (hparen : paren = '(' ∨ paren = ')') (cs back : List Char)
include hparen

theorem splitDigits_append_paren : splitDigits (cs ++ paren :: back) =
    ((splitDigits cs).1, (splitDigits cs).2 ++ paren :: back) := by
  have hend : ∀ c ∈ ((splitDigits cs).2 ++ paren :: back).head?, c.isDigit = false := by
    intro c hc
    cases hrest : (splitDigits cs).2 with
    | nil =>
      rw [hrest] at hc
      obtain rfl : paren = c := Option.some.inj hc
      rcases hparen with rfl | rfl <;> rfl
    | cons first more =>
      rw [hrest] at hc
      have hhead : c ∈ (splitDigits cs).2.head? := by rwa [hrest]
      exact isDigit_of_head_splitDigits hhead
  have hdigits : ∀ c ∈ (splitDigits cs).1, c.isDigit = true := fun c => isDigit_of_mem_splitDigits
  have hsplit := splitDigits_append_of hdigits hend
  rwa [← List.append_assoc, splitDigits_append] at hsplit

theorem splitFraction_append_paren : splitFraction (cs ++ paren :: back) =
    ((splitFraction cs).1, (splitFraction cs).2 ++ paren :: back) := by
  fun_cases splitFraction cs with
  | case1 cs =>
    show (some (splitDigits (cs ++ paren :: back)).1, (splitDigits (cs ++ paren :: back)).2) = _
    rw [splitDigits_append_paren hparen]
  | case2 cs hpoint =>
    refine splitFraction_of_ne fun c hc => ?_
    cases cs with
    | nil =>
      obtain rfl : paren = c := Option.some.inj hc
      rcases hparen with rfl | rfl <;> decide
    | cons first more =>
      rintro rfl
      exact hpoint more (congrArg (· :: more) (Option.some.inj hc))

theorem splitSign_append_paren :
    splitSign (cs ++ paren :: back) = ((splitSign cs).1, (splitSign cs).2 ++ paren :: back) := by
  fun_cases splitSign cs with
  | case1 | case2 => rfl
  | case3 cs hplus hminus =>
    cases cs with
    | nil => rcases hparen with rfl | rfl <;> rfl
    | cons first more =>
      exact splitSign_of_ne (fun h => hplus more (congrArg (· :: more) h))
        fun h => hminus more (congrArg (· :: more) h)

theorem Exponent.split_append_paren :
    split (cs ++ paren :: back) = ((split cs).1, (split cs).2 ++ paren :: back) := by
  cases cs with
  | nil => rcases hparen with rfl | rfl <;> rfl
  | cons mark cs =>
    rw [List.cons_append, split, split, splitSign_append_paren hparen]
    dsimp only
    rw [splitDigits_append_paren hparen]
    split
    · split <;> rfl
    · rfl

variable {cs}

/-- A numeral does not go on with a parenthesis. -/
theorem read?_append_paren {n : Numeral} {rest : List Char} (h : read? cs = some (n, rest)) :
    read? (cs ++ paren :: back) = some (n, rest ++ paren :: back) := by
  unfold read? at h ⊢
  dsimp only at h ⊢
  rw [splitDigits_append_paren hparen, splitFraction_append_paren hparen,
    Exponent.split_append_paren hparen]
  split at h
  · nomatch h
  · next hdigit =>
    obtain ⟨rfl, rfl⟩ := Prod.mk.inj (Option.some.inj h)
    exact if_neg hdigit

end Numeral

/-- No token goes on with a parenthesis. -/
theorem Token.read?_append_paren {paren : Char} (hparen : paren = '(' ∨ paren = ')')
    {cs chars rest : List Char} {kind : Kind} (back : List Char)
    (h : read? cs = some (kind, chars, rest)) :
    read? (cs ++ paren :: back) = some (kind, chars, rest ++ paren :: back) := by
  fun_cases read? cs with
  | case1 more =>
    simp only [read?, Option.some.injEq, Prod.mk.injEq] at h
    obtain ⟨rfl, rfl, rfl⟩ := h
    rfl
  | case2 => cases h
  | case3 c more hstar k hk =>
    simp only [read?_of_ofChar? hk hstar, Option.some.injEq, Prod.mk.injEq] at h
    obtain ⟨rfl, rfl, rfl⟩ := h
    -- A star is not doubled by what stands behind: that was there before, or is the parenthesis.
    refine read?_of_ofChar? hk fun more' hc hmore => ?_
    cases more with
    | nil =>
      obtain rfl : paren = '*' := (List.cons.inj hmore).1
      exact absurd hparen (by decide)
    | cons first more =>
      obtain ⟨rfl, -⟩ := List.cons.inj hmore
      exact hstar more hc rfl
  | case4 c more hstar hk =>
    simp only [read?_of_none hk, Option.map_eq_some_iff, Prod.mk.injEq] at h
    obtain ⟨⟨n, after⟩, hn, rfl, rfl, rfl⟩ := h
    rw [List.cons_append, read?_of_none hk, ← List.cons_append,
      Numeral.read?_append_paren hparen back hn]
    rfl

namespace Token

/-- The token in a text with so many more bytes in front of it. -/
def shift (distance : Nat) (token : Token) : Token :=
  { token with span := ⟨distance + token.span.start, distance + token.span.stop⟩ }

/-- The token without its span. -/
def bare (token : Token) : Token := { token with span := .point 0 }

/-- Tokens that stand elsewhere are the same up to spans. -/
@[simp] theorem map_bare_shift (distance : Nat) (tokens : List Token) :
    (tokens.map (shift distance)).map bare = tokens.map bare :=
  List.map_map

end Token

namespace Scan

variable {offset stop : Nat} {cs rest : List Char} {tokens : List Token}

/-- The tokens of a text are read in front of a parenthesis as well. -/
theorem Reads.append_paren {paren : Char} (hparen : paren = '(' ∨ paren = ')')
    (h : Reads offset cs tokens stop rest) (back : List Char) :
    Reads offset (cs ++ paren :: back) tokens stop (rest ++ paren :: back) := by
  induction h with
  | done => exact .done
  | blank hblank _ ih => exact .blank hblank ih
  | token hread _ ih => exact .token (Token.read?_append_paren hparen back hread) ih

/-- A text that stands elsewhere has the same tokens there. -/
theorem Reads.shift (h : Reads offset cs tokens stop rest) (distance : Nat) :
    Reads (distance + offset) cs (tokens.map (Token.shift distance)) (distance + stop) rest := by
  induction h with
  | done => exact .done
  | blank hblank _ ih => exact .blank hblank (by rwa [Nat.add_assoc])
  | @token offset stop cs chars cs' rest kind tokens hread _ ih =>
    rw [← Nat.add_assoc] at ih
    rw [List.map_cons, Token.shift, ← Nat.add_assoc]
    exact .token hread ih

end Scan

/-! ## Texts in parentheses -/

namespace Grammar

variable {phrase : Phrase} {tokens : List Token} {e : Expr} {need : Nat}

/-- A phrase does not ask where its tokens stand. -/
theorem Derives.of_map_bare (h : Derives phrase tokens e need) {tokens' : List Token}
    (htokens : tokens'.map Token.bare = tokens.map Token.bare) :
    Derives phrase tokens' e need := by
  have hkind {token token' : Token} (h : token'.bare = token.bare) : token'.kind = token.kind :=
    (congrArg Token.kind h :)
  induction h generalizing tokens' with
  | @number token kind =>
    obtain ⟨token', rest, rfl, htoken, hrest⟩ := List.map_eq_cons_iff.mp htokens
    obtain rfl := List.map_eq_nil_iff.mp hrest
    have htext : token'.text = token.text := (congrArg Token.text htoken :)
    rw [← htext]
    exact .number ((hkind htoken).trans kind)
  | group open_kind close_kind _ ih =>
    rw [List.map_cons, List.map_append] at htokens
    obtain ⟨opened, rest, rfl, hopened, hrest⟩ := List.map_eq_cons_iff.mp htokens
    obtain ⟨inner, last, rfl, hinner, hlast⟩ := List.map_eq_append_iff.mp hrest
    obtain ⟨closed, none, rfl, hclosed, hnone⟩ := List.map_eq_cons_iff.mp hlast
    obtain rfl := List.map_eq_nil_iff.mp hnone
    exact .group ((hkind hopened).trans open_kind) ((hkind hclosed).trans close_kind) (ih hinner)
  | signed kind _ ih =>
    obtain ⟨token, rest, rfl, htoken, hrest⟩ := List.map_eq_cons_iff.mp htokens
    exact .signed (by rw [hkind htoken, kind]) (ih hrest)
  | binary kind _ _ ihl ihr =>
    rw [List.map_append, List.map_cons] at htokens
    obtain ⟨lefts, rest, rfl, hlefts, hrest⟩ := List.map_eq_append_iff.mp htokens
    obtain ⟨token, rights, rfl, htoken, hrights⟩ := List.map_eq_cons_iff.mp hrest
    exact .binary (by rw [hkind htoken, kind]) (ihl hlefts) (ihr hrights)
  | ofPrimary _ ih => exact .ofPrimary (ih htokens)
  | ofSigned _ ih => exact .ofSigned (ih htokens)
  | ofFactor _ ih => exact .ofFactor (ih htokens)
  | ofTerm _ ih => exact .ofTerm (ih htokens)

/-- A text that is an expression as a whole is, in parentheses, an operand with the same tree. -/
theorem Derives.spells_group {text : String} (hfault : (Scan.ofText text).fault = none)
    (h : Derives .expression (Scan.ofText text).tokens e need) :
    Spells .primary ('(' :: (text.toList ++ [')'])) e (need + 1) := by
  intro offset rest _
  obtain ⟨stop, rest', hreads, hnil⟩ := Scan.reads_ofText text
  obtain rfl := hnil hfault
  have hopen : Token.read? ('(' :: (text.toList ++ ')' :: rest)) =
      some (.openParen, ['('], text.toList ++ ')' :: rest) := rfl
  have hclose : Token.read? (')' :: rest) = some (.closeParen, [')'], rest) := rfl
  have hinner := (hreads.append_paren (.inr rfl) rest).shift (offset + width ['('])
  have hall := Scan.Reads.token hopen (hinner.append (.token hclose .done))
  rw [List.cons_append, List.append_assoc]
  exact ⟨_, _, hall, .group rfl rfl (h.of_map_bare (Token.map_bare_shift ..))⟩

/-- Between two operands every operator may stand. -/
theorem Spells.between (op : BinaryOp) {lefts rights : List Char} {left right : Expr}
    {leftNeed rightNeed : Nat} (hleft : Spells .primary lefts left leftNeed)
    (hright : Spells .primary rights right rightNeed) :
    Spells .expression (lefts ++ ' ' :: op.symbol.toList ++ ' ' :: rights)
      (.binary op (.point 0) left right (.point 0)) (max leftNeed (rightNeed + 1)) := by
  have hleft' : Spells (.leftOf op) lefts left leftNeed := hleft.weaken (by cases op <;> decide)
  have hright' : Spells (.rightOf op) rights right rightNeed :=
    hright.weaken (by cases op <;> decide)
  exact (Spells.binary op hleft' hright').weaken (by cases op <;> decide)

/-- In front of an operand every sign may stand. -/
theorem Spells.behind (sign : Sign) {text : List Char} (h : Spells .primary text e need) :
    Spells .expression (sign.symbol.toList ++ text) (.signed sign e (.point 0)) (need + 1) := by
  have hsigned : Spells .signed text e need := h.weaken (by decide)
  exact (hsigned.signed sign).weaken (by decide)

end Grammar

namespace Failure

/-- The failure without its spans in the tree. -/
def bare : Failure → Failure
  | malformed error => malformed error
  | undefined error => undefined error.bare

end Failure

namespace Limits

open Grammar

variable {limits : Limits} {text : String} {e : Expr} {need : Nat}

/-- With enough levels, a calculation gives the plain value of the tree. -/
theorem calculate_of_derives (hfault : (Scan.ofText text).fault = none)
    (h : Derives .expression (Scan.ofText text).tokens e need) (hneed : need ≤ limits.nesting)
    (hdepth : need + 1 ≤ limits.depth) :
    (limits.calculate text).mapError Failure.bare = e.value.mapError .undefined := by
  obtain ⟨tree, hparse, rfl⟩ := exists_parse_of_derives hfault h hneed
  have hnesting := Nat.le_trans h.nesting_le hdepth
  have hvalue : tree.bare.value = (limits.evaluate tree).mapError EvalError.bare := by
    rw [← Expr.eval_eq_value hnesting]
    exact Expr.eval_mapSpan _ limits.depth tree
  rw [hvalue, calculate, hparse]
  show ((limits.evaluate tree).mapError Failure.undefined).mapError Failure.bare = _
  cases limits.evaluate tree <;> rfl

/-- The value of a text that is scanned as an expression. -/
theorem calculate_of_spells (h : Spells .expression text.toList e need)
    (hneed : need ≤ limits.nesting) (hdepth : need + 1 ≤ limits.depth) :
    (limits.calculate text).mapError Failure.bare = e.value.mapError .undefined := by
  obtain ⟨tokens, stop, hreads, hd⟩ := h 0 [] Numeral.ends_nil
  rw [List.append_nil] at hreads
  obtain ⟨htokens, hfault⟩ := Scan.ofText_of_reads hreads
  exact calculate_of_derives hfault (htokens ▸ hd) hneed hdepth

/-- A text that is accepted can be calculated with in parentheses: an operator between two such
texts is applied to their values, and a sign in front of one to its value. If a part has no value,
neither has the whole, for the reason that the first such part gives. The whole needs two levels
more than the parts, and one more again for its tree. -/
theorem calculate_parts (limits : Limits) {n : Nat} {a b : String} {left right : Expr}
    (ha : ({ nesting := n } : Limits).parse a = .ok left)
    (hb : ({ nesting := n } : Limits).parse b = .ok right)
    (hnesting : n + 2 ≤ limits.nesting) (hdepth : n + 3 ≤ limits.depth) :
    (∀ op : BinaryOp,
      (limits.calculate ("(" ++ a ++ ") " ++ op.symbol ++ " (" ++ b ++ ")")).mapError Failure.bare =
        (do
          let x ← (limits.calculate a).mapError Failure.bare
          let y ← (limits.calculate b).mapError Failure.bare
          (op.operation.apply x y (.point 0)).mapError .undefined)) ∧
    ∀ sign : Sign,
      (limits.calculate (sign.symbol ++ "(" ++ a ++ ")")).mapError Failure.bare =
        ((limits.calculate a).mapError Failure.bare).map sign.apply := by
  obtain ⟨leftNeed, hleftNeed, hl⟩ := derives_of_parse ha
  obtain ⟨rightNeed, hrightNeed, hr⟩ := derives_of_parse hb
  dsimp only at hleftNeed hrightNeed
  have hleftFault := (parse_eq_ok_iff.mp ha).1
  have hrightFault := (parse_eq_ok_iff.mp hb).1
  have hleft := hl.spells_group hleftFault
  have hright := hr.spells_group hrightFault
  have hx : (limits.calculate a).mapError Failure.bare = _ :=
    calculate_of_derives hleftFault hl (by omega) (by omega)
  have hy : (limits.calculate b).mapError Failure.bare = _ :=
    calculate_of_derives hrightFault hr (by omega) (by omega)
  -- The whole is scanned as a phrase, and its tree has the trees of the parts as operands.
  refine ⟨fun op => ?_, fun sign => ?_⟩
  · have htext : ("(" ++ a ++ ") " ++ op.symbol ++ " (" ++ b ++ ")").toList =
        '(' :: (a.toList ++ [')']) ++ ' ' :: op.symbol.toList ++
          ' ' :: '(' :: (b.toList ++ [')']) := by
      simp
    have hwhole := Spells.between op hleft hright
    rw [← htext] at hwhole
    rw [calculate_of_spells hwhole (by omega) (by omega), hx, hy, Expr.value, mapError_bind]
    simp only [mapError_bind]
  · have htext : (sign.symbol ++ "(" ++ a ++ ")").toList =
        sign.symbol.toList ++ '(' :: (a.toList ++ [')']) := by
      simp
    have hwhole := Spells.behind sign hleft
    rw [← htext] at hwhole
    rw [calculate_of_spells hwhole (by omega) (by omega), hx, Expr.value, mapError_map]

/-- Sums are the operands of a power and of a sign, in parentheses. -/
theorem calculate_parts_sums :
    let limits : Limits := { nesting := 4, depth := 5 }
    (limits.calculate "(1+2) ** (1 + 3)").mapError Failure.bare = .ok (.int 81) ∧
      (limits.calculate "-(1+2)").mapError Failure.bare = .ok (.int (-3)) := by
  intro limits
  have ha : ({ nesting := 2 } : Limits).parse "1+2" = .ok (.binary .add ⟨1, 2⟩
      (.number "1" ⟨0, 1⟩) (.number "2" ⟨2, 3⟩) ⟨0, 3⟩) := by decide +kernel
  have hb : ({ nesting := 2 } : Limits).parse "1 + 3" = .ok (.binary .add ⟨2, 3⟩
      (.number "1" ⟨0, 1⟩) (.number "3" ⟨4, 5⟩) ⟨0, 5⟩) := by decide +kernel
  have hparts := calculate_parts limits ha hb (Nat.le_refl 4) (Nat.le_refl 5)
  have hpower : "(" ++ "1+2" ++ ") " ++ BinaryOp.starStar.symbol ++ " (" ++ "1 + 3" ++ ")" =
      "(1+2) ** (1 + 3)" := by decide
  have hsign : Sign.minus.symbol ++ "(" ++ "1+2" ++ ")" = "-(1+2)" := by decide
  have hop := hparts.1 .starStar
  have hsigned := hparts.2 .minus
  rw [hpower] at hop
  rw [hsign] at hsigned
  exact ⟨hop.trans (by decide +kernel), hsigned.trans (by decide +kernel)⟩

end Limits

end Calculator

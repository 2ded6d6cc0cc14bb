import Calculator.Proofs.LongestTokens
import Calculator.Proofs.RoundTrip
import Mathlib.Order.Bounds.Defs

/-!
# The fewest parentheses

A printed tree opens as few groups as any text that is accepted with a tree of its shape. The
grammar shows the lower bound: where the printer puts parentheses around an operand, no derivation
has room for it without them. The text itself shows that the bound is met.

* `Expr.printGroups`: the number of groups in the text of a tree.
* `Grammar.Derives.printGroups_le`: no derivation of the tree has fewer.
* `Scan.Reads.count_openParen`: a scan finds a group for each opening parenthesis of the text.
* `Limits.groups_print_isLeast`: the number of groups in a printed text is the least one.
-/

namespace Calculator

open Grammar

/-! ## Groups of a tree -/

namespace Expr

/-- The tree without its spans and without the digits of its numbers. -/
def shape : Expr → Expr
  | number _ _ => number "" (.point 0)
  | signed sign operand _ => signed sign operand.shape (.point 0)
  | binary op _ left right _ => binary op (.point 0) left.shape right.shape (.point 0)
  | invalid _ => invalid (.point 0)

/-- The number of groups in the text of a tree at a place that asks for precedence `level`. -/
def printGroups (level : Nat) : Expr → Nat
  | number .. | invalid _ => 0
  | signed _ operand _ =>
    operand.printGroups Sign.precedence + (decide (Sign.precedence < level)).toNat
  | binary op _ left right _ =>
    left.printGroups op.leftLevel + right.printGroups op.rightLevel +
      (decide (op.precedence < level)).toNat

@[simp] theorem shape_mapSpan (f : Span → Span) (e : Expr) : (e.mapSpan f).shape = e.shape := by
  induction e with
  | number | invalid => rfl
  | signed sign operand span ih => simp only [mapSpan, shape, ih]
  | binary op opSpan left right span ihl ihr => simp only [mapSpan, shape, ihl, ihr]

/-- Trees that are equal up to spans have one shape. -/
theorem shape_eq_of_bare_eq {e e' : Expr} (h : e.bare = e'.bare) : e.shape = e'.shape := by
  rw [← shape_mapSpan (fun _ => .point 0) e, ← shape_mapSpan (fun _ => .point 0) e']
  exact congrArg shape h

/-- The groups of a tree are a matter of its shape. -/
@[simp] theorem printGroups_shape (level : Nat) (e : Expr) :
    e.shape.printGroups level = e.printGroups level := by
  induction e generalizing level with
  | number | invalid => rfl
  | signed sign operand span ih => simp only [shape, printGroups, ih]
  | binary op opSpan left right span ihl ihr => simp only [shape, printGroups, ihl, ihr]

/-- A place that asks for more costs one group at the most. -/
theorem printGroups_le_add_one (level level' : Nat) (e : Expr) :
    e.printGroups level ≤ e.printGroups level' + 1 := by
  cases e with
  | number | invalid => exact Nat.zero_le _
  | signed sign operand span =>
    have := Bool.toNat_le (decide (Sign.precedence < level))
    simp only [printGroups]
    omega
  | binary op opSpan left right span =>
    have := Bool.toNat_le (decide (op.precedence < level))
    simp only [printGroups]
    omega

end Expr

namespace Token

/-- The number of groups that the tokens open. -/
def groups (tokens : List Token) : Nat := tokens.countP fun token => token.kind = .openParen

variable {token : Token} {tokens tokens' : List Token}

@[simp] theorem groups_append : groups (tokens ++ tokens') = groups tokens + groups tokens' :=
  List.countP_append

theorem groups_cons_of_openParen (h : token.kind = .openParen) :
    groups (token :: tokens) = groups tokens + 1 :=
  List.countP_cons_of_pos (by rw [h, decide_eq_true_eq])

theorem groups_cons_of_ne (h : token.kind ≠ .openParen) :
    groups (token :: tokens) = groups tokens :=
  List.countP_cons_of_neg (by rwa [decide_eq_true_eq])

theorem groups_le_cons (token : Token) (tokens : List Token) :
    groups tokens ≤ groups (token :: tokens) :=
  (List.sublist_cons_self token tokens).countP_le

end Token

namespace Grammar.Derives

variable {phrase : Phrase} {tokens : List Token} {e : Expr} {need : Nat}

/-- No derivation of a tree has fewer groups than its text. Where the text has one, a phrase without
it is not of the kind that its place asks for. -/
theorem printGroups_le (h : Derives phrase tokens e need) {level : Nat}
    (hlevel : level ≤ phrase.level) : e.printGroups level ≤ Token.groups tokens := by
  induction h generalizing level with
  | number => exact Nat.zero_le _
  | @group opened closed tokens e need open_kind close_kind inner ih =>
    have hinner := ih (Nat.zero_le _)
    have hgroup := e.printGroups_le_add_one level 0
    rw [Token.groups_cons_of_openParen open_kind, Token.groups_append]
    omega
  | @signed token tokens sign e need kind operand ih =>
    have hwrap : ¬ Sign.precedence < level := Nat.not_lt_of_le hlevel
    simp only [Expr.printGroups, hwrap, decide_false, Bool.toNat_false]
    exact Nat.le_trans (ih (Nat.le_refl _)) (Token.groups_le_cons token tokens)
  | @binary token lefts rights op left right leftNeed rightNeed kind hl hr ihl ihr =>
    have hwrap : ¬ op.precedence < level := Nat.not_lt_of_le (Phrase.level_ofOp op ▸ hlevel)
    have hleft := ihl (Nat.le_of_eq (Phrase.level_leftOf op).symm)
    have hright := ihr (Nat.le_of_eq (Phrase.level_rightOf op).symm)
    have hcons := Token.groups_le_cons token rights
    simp only [Expr.printGroups, hwrap, decide_false, Bool.toNat_false, Token.groups_append]
    omega
  | ofPrimary _ ih | ofSigned _ ih | ofFactor _ ih | ofTerm _ ih =>
    exact ih (Nat.le_trans hlevel (by decide))

end Grammar.Derives

/-! ## Parentheses in texts -/

/-- A literal has no parenthesis in it. -/
theorem Numeral.IsNumber.count_openParen {cs : List Char} (h : IsNumber cs) : cs.count '(' = 0 := by
  obtain ⟨n, hn, rfl⟩ := isNumber_iff.mp h
  refine List.count_eq_zero.mpr fun hmem => ?_
  exact absurd (hn.mem_text hmem) (by decide)

/-- One parenthesis is opened in the token that opens a group, and none in others. -/
theorem Token.Form.count_openParen {kind : Kind} {chars : List Char} (h : Form kind chars) :
    chars.count '(' = (decide (kind = .openParen)).toNat := by
  cases h with
  | symbol h => cases kind <;> cases h <;> decide
  | number h => rw [h.count_openParen]; rfl

/-- A scan finds a group for each parenthesis that is opened in the text. -/
theorem Scan.Reads.count_openParen {offset stop : Nat} {cs rest : List Char} {tokens : List Token}
    (h : Reads offset cs tokens stop rest) :
    cs.count '(' = Token.groups tokens + rest.count '(' := by
  induction h with
  | done => exact (Nat.zero_add _).symm
  | @blank offset stop c cs rest tokens hblank _ ih =>
    have hc : c ≠ '(' := by
      rintro rfl
      exact absurd hblank (by decide)
    rw [List.count_cons_of_ne hc, ih]
  | @token offset stop cs chars cs' rest kind tokens hread _ ih =>
    rw [← Token.text_read? hread, List.count_append, (Token.form_of_read? hread).count_openParen,
      ih]
    by_cases hkind : kind = .openParen
    · rw [Token.groups_cons_of_openParen (by exact hkind), decide_eq_true hkind, Bool.toNat_true]
      omega
    · rw [Token.groups_cons_of_ne (by exact hkind), decide_eq_false hkind, Bool.toNat_false]
      omega

namespace Expr

theorem count_openParen_parenthesizeIf (wrap : Bool) (text : List Char) :
    (parenthesizeIf wrap text).count '(' = text.count '(' + wrap.toNat := by
  cases wrap <;> simp [parenthesizeIf]

/-- The parentheses in the text of a tree are those of its groups. -/
theorem count_openParen_printAt {e : Expr} (h : e.WellFormed) (level : Nat) :
    (e.printAt level).count '(' = e.printGroups level := by
  induction e generalizing level with
  | number text span =>
    obtain ⟨n, hn⟩ := h
    have htext := Numeral.text_read? hn
    rw [List.append_nil] at htext
    exact (Numeral.isNumber_iff.mpr ⟨n, Numeral.wellFormed_of_read? hn, htext⟩).count_openParen
  | invalid span => exact h.elim
  | signed sign operand span ih =>
    have hsign : sign.symbol.toList.count '(' = 0 := by cases sign <;> decide
    rw [printAt, count_openParen_parenthesizeIf, List.count_append, hsign, ih h, Nat.zero_add,
      printGroups]
  | binary op opSpan left right span ihl ihr =>
    have hop : op.symbol.toList.count '(' = 0 := by cases op <;> decide
    have hspace : ' ' ≠ '(' := by decide
    rw [printAt, count_openParen_parenthesizeIf, List.append_assoc, List.count_append,
      List.cons_append, List.count_cons_of_ne hspace, List.count_append, hop,
      List.count_cons_of_ne hspace, ihl h.1, ihr h.2, Nat.zero_add, printGroups]

/-- A scan of the text of a tree finds its groups. -/
theorem groups_print {e : Expr} (h : e.WellFormed) :
    Token.groups (Scan.ofText e.print).tokens = e.printGroups 0 := by
  obtain ⟨tokens, stop, hreads, -⟩ := spells_printAt h 0 0 [] Numeral.ends_nil
  have hreads' : Scan.Reads 0 e.print.toList tokens stop [] := by
    rwa [print_eq, String.toList_ofList, ← List.append_nil (e.printAt 0)]
  have hcount := hreads'.count_openParen
  rw [List.count_nil, Nat.add_zero, print_eq, String.toList_ofList,
    count_openParen_printAt h] at hcount
  rw [(Scan.ofText_of_reads hreads').1, hcount]

end Expr

namespace Limits

/-- The numbers of groups in the texts that are accepted, under any limits, with a tree of the
shape. -/
def groupCounts (shape : Expr) : Set Nat :=
  {count | ∃ (limits : Limits) (text : String) (tree : Expr), limits.parse text = .ok tree ∧
    tree.shape = shape ∧ Token.groups (Scan.ofText text).tokens = count}

/-- A printed text has the fewest parentheses: of all texts that are accepted with a tree of this
shape, under any limits, none opens fewer groups, and the printed text is itself one of them. -/
theorem groups_print_isLeast {limits : Limits} {text : String} {tree : Expr}
    (h : limits.parse text = .ok tree) :
    IsLeast (groupCounts tree.shape) (Token.groups (Scan.ofText tree.print).tokens) := by
  constructor
  · obtain ⟨again, hagain, hbare⟩ := parse_print_of_parse h
    exact ⟨limits, tree.print, again, hagain, Expr.shape_eq_of_bare_eq hbare, rfl⟩
  · rintro count ⟨limits', text', tree', h', hshape, rfl⟩
    obtain ⟨need, -, hd⟩ := derives_of_parse h'
    calc Token.groups (Scan.ofText tree.print).tokens
        = tree.printGroups 0 := Expr.groups_print (wellFormed_of_parse h)
      _ = tree'.bare.printGroups 0 := by
        rw [← Expr.printGroups_shape, ← hshape, ← Expr.shape_mapSpan (fun _ => .point 0) tree',
          Expr.printGroups_shape]
        rfl
      _ ≤ Token.groups (Scan.ofText text').tokens := hd.printGroups_le (Nat.zero_le _)

/-- One of three groups is needed: the difference is the left operand of a product. -/
theorem groups_print_isLeast_product :
    let difference : Expr :=
      .binary .sub ⟨5, 6⟩ (.number "10" ⟨2, 4⟩) (.number "4" ⟨7, 8⟩) ⟨0, 10⟩
    let tree : Expr := .binary .mul ⟨11, 12⟩ difference (.number "3" ⟨13, 16⟩) ⟨0, 16⟩
    ({} : Limits).parse "((10 - 4)) * (3)" = .ok tree ∧
      IsLeast (groupCounts tree.shape) (Token.groups (Scan.ofText tree.print).tokens) := by
  intro difference tree
  have hparse : ({} : Limits).parse "((10 - 4)) * (3)" = .ok tree := by decide +kernel
  exact ⟨hparse, groups_print_isLeast hparse⟩

end Limits

end Calculator

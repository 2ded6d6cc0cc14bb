import Calculator.Proofs.Grammar.Strength
import Calculator.Proofs.Progress

/-!
# What is read is a phrase

A reading that reports nothing has read the tokens of a derivation whose tree it gives and whose
need it has the levels for. The loop over operators carries this from one operator to the next: what
has been read so far is a phrase that the operator at the cursor may hold.

* `Nested.stopsAt_climb`: behind what was read stands no operator that would hold it.
* `Nested.Sound`: a clean reading is a phrase; `parseAt_sound` says this of every number of levels.
* `Derives.of_parse`: a text without reports is an expression as a whole.
-/

namespace Calculator

namespace Expr

open Grammar

/-- Reading from `c` on gave a tree and a cursor, and the tokens between are a phrase with that
tree, which needs so many levels at most. -/
def Took (levels : Nat) (phrase : Phrase) (c : Cursor) (found : Expr × Cursor) : Prop :=
  ∃ tokens need, c.rest = tokens ++ found.2.rest ∧ need ≤ levels ∧
    Derives phrase tokens found.1.bare need

theorem Took.weaken {levels : Nat} {weak strong : Phrase} {c : Cursor} {found : Expr × Cursor}
    (h : Took levels strong c found) (hle : weak.strength ≤ strong.strength) :
    Took levels weak c found := by
  obtain ⟨tokens, need, hrest, hneed, hd⟩ := h
  exact ⟨tokens, need, hrest, hneed, hd.weaken hle⟩

namespace Nested

/-- A reading without a report took a phrase of every kind that its strength admits. -/
def Sound (inner : Nested) (levels : Nat) : Prop :=
  ∀ (least : Nat) (c : Cursor) (phrase : Phrase), phrase.Admits least →
    c.Clean (inner.read least c).2 → Took levels phrase c (inner.read least c)

/-- A reading leaves no operator behind that holds with its strength. -/
def Stops (inner : Nested) : Prop :=
  ∀ (least : Nat) (c : Cursor), Token.StopsAt least (inner.read least c).2.rest

theorem stopsAt_climb (inner : Nested) (least : Nat) (left : Expr) (c : Cursor) :
    Token.StopsAt least (inner.climb least left c).2.rest := by
  fun_induction inner.climb least left c with
  | case1 left c hop =>
    intro token ht op hkind
    rw [Cursor.peek_of_head? ht, hkind] at hop
    cases hop
  | case2 left c op hop hlt =>
    intro token ht op' hkind
    rw [Cursor.peek_of_head? ht, hkind, Option.some.injEq] at hop
    rwa [hop]
  | case3 left c op hop hp right hlt ih => exact ih

/-- A right operand that is missing is reported. -/
theorem starts_of_clean_readRight {inner : Nested} {op : BinaryOp} {c : Cursor}
    (hclean : c.Clean (inner.readRight op c).2) : c.advance.peek.kind.startsExpr = true := by
  refine Bool.not_eq_false _ ▸ fun hs => ?_
  rw [inner.readRight_of_not_starts hs] at hclean
  exact Cursor.not_clean_report _ _ _ (c.leads_advance.clean_right (Cursor.leads_report ..) hclean)

variable {inner : Nested} {levels : Nat} (hleads : inner.Leads) (hsound : inner.Sound levels)
  (hstops : inner.Stops)
include hleads hsound

theorem took_readSigned {sign : Sign} {c : Cursor} (kind : c.peek.kind.sign? = some sign)
    (hclean : c.Clean (inner.readSigned sign c).2) :
    Took (levels + 1) .signed c (inner.readSigned sign c) := by
  have hrest := Cursor.rest_eq_cons (Token.Kind.ne_finish_of_sign? kind)
  cases hs : c.advance.peek.kind.startsExpr with
  | false =>
    rw [inner.readSigned_of_not_starts hs] at hclean
    exact absurd (c.leads_advance.clean_right (Cursor.leads_report ..) hclean)
      (Cursor.not_clean_report _ _ _)
  | true =>
    rw [inner.readSigned_of_starts hs] at hclean ⊢
    have hin := c.leads_advance.clean_right (hleads _ _) hclean
    obtain ⟨tokens, need, heq, hneed, hd⟩ := hsound _ _ .signed Phrase.signed_admits hin
    refine ⟨c.peek :: tokens, need + 1, ?_, by omega, .signed kind hd⟩
    rw [hrest, heq, List.cons_append]

theorem took_readRight {op : BinaryOp} {c : Cursor} (hclean : c.Clean (inner.readRight op c).2) :
    Took levels (.rightOf op) c.advance (inner.readRight op c) := by
  have hs := starts_of_clean_readRight hclean
  rw [inner.readRight_of_starts hs] at hclean ⊢
  exact hsound _ _ _ (Phrase.rightOf_admits op) (c.leads_advance.clean_right (hleads _ _) hclean)

theorem took_readGroup {c : Cursor} (kind : c.peek.kind = .openParen)
    (hclean : c.Clean (inner.readGroup c).2) :
    Took (levels + 1) .primary c (inner.readGroup c) := by
  have hrest := Cursor.rest_eq_cons (c := c) fun hk => by simp [hk] at kind
  have hlead := c.leads_advance.trans (hleads 0 c.advance)
  by_cases hclose : (inner.read 0 c.advance).2.peek.kind = .closeParen
  · rw [inner.readGroup_of_closed hclose] at hclean ⊢
    have hin := c.leads_advance.clean_right (hleads _ _)
      (hlead.clean_left (Cursor.leads_advance _) hclean)
    obtain ⟨tokens, need, heq, hneed, hd⟩ := hsound _ _ .expression Phrase.expression_admits hin
    have hafter := Cursor.rest_eq_cons (c := (inner.read 0 c.advance).2) fun hk => by
      simp [hk] at hclose
    refine ⟨c.peek :: (tokens ++ [(inner.read 0 c.advance).2.peek]), need + 1, ?_, by omega, ?_⟩
    · rw [hrest, heq, hafter]
      simp
    · rw [bare_withSpan]
      exact .group kind hclose hd
  · rw [inner.readGroup_of_not_closed hclose] at hclean
    have hin := (hlead.trans (Cursor.leads_report ..)).clean_left (Cursor.leads_skipPastClose _)
      hclean
    exact absurd (hlead.clean_right (Cursor.leads_report ..) hin) (Cursor.not_clean_report _ _ _)

theorem took_readOperand {c : Cursor} (hclean : c.Clean (inner.readOperand c).2) :
    Took (levels + 1) .signed c (inner.readOperand c) := by
  refine inner.readOperand_cases
    (motive := fun found => c.Clean found.2 → Took (levels + 1) .signed c found)
    (fun hk _ => ?_) (fun sign kind => took_readSigned hleads hsound kind)
    (fun hk hclean => (took_readGroup hleads hsound hk hclean).weaken (by decide))
    (fun _ hclean => absurd hclean (Cursor.not_clean_report _ _ _)) hclean
  exact ⟨[c.peek], 1, Cursor.rest_eq_cons (by rw [hk]; nofun), by omega, .ofPrimary (.number hk)⟩

include hstops

/-- The loop goes on from a phrase that the operator at the cursor may hold. -/
theorem took_climb {least : Nat} {phrase held : Phrase} (hadmits : phrase.Admits least)
    (start : Cursor) (left : Expr) (c : Cursor) (htook : Took (levels + 1) held start (left, c))
    (hphrase : phrase.strength ≤ held.strength)
    (hheld : ∀ op, c.peek.kind.binaryOp? = some op → (Phrase.leftOf op).strength ≤ held.strength)
    (hclean : c.Clean (inner.climb least left c).2) :
    Took (levels + 1) phrase start (inner.climb least left c) := by
  fun_induction inner.climb least left c generalizing held with
  | case1 left c hop => exact htook.weaken hphrase
  | case2 left c op hop hlt => exact htook.weaken hphrase
  | case3 left c op hop hle right hlt =>
    rename_i ih
    have hlead := leads_readRight hleads op c
    have hright := hlead.clean_left (leads_climb hleads _ _ _) hclean
    have hrest := Cursor.rest_eq_cons_of_binaryOp? hop
    obtain ⟨lefts, leftNeed, hl, hln, hld⟩ := htook
    obtain ⟨rights, rightNeed, hr, hrn, hrd⟩ := took_readRight hleads hsound hright
    have hnew : Took (levels + 1) (.ofOp op) start (binary op c.peek.span left
        (inner.readRight op c).1 (left.span.cover (inner.readRight op c).1.span),
        (inner.readRight op c).2) := by
      refine ⟨lefts ++ c.peek :: rights, max leftNeed (rightNeed + 1), ?_, by omega,
        .binary hop (hld.weaken (hheld op hop)) hrd⟩
      rw [hl, hrest, hr]
      simp
    refine ih hnew ?_ ?_ (hlead.clean_right (leads_climb hleads _ _ _) hclean)
    · rw [Phrase.strength_ofOp]
      exact hadmits.2 op (Nat.not_lt.mp hle)
    · -- The right operand was read up to an operator that holds it with less than `op` does.
      intro behind hbehind
      have hstop := hstops op.rightBinding c.advance
      rw [← inner.readRight_of_starts (starts_of_clean_readRight hright)] at hstop
      have hrest' := Cursor.rest_eq_cons_of_binaryOp? hbehind
      exact Phrase.leftOf_of_lt (hstop _ (by rw [hrest']; rfl) behind hbehind)

/-- Reading with one level more is sound. -/
theorem sound_readExpr (least : Nat) (c : Cursor) (phrase : Phrase) (hadmits : phrase.Admits least)
    (hclean : c.Clean (inner.readExpr least c).2) :
    Took (levels + 1) phrase c (inner.readExpr least c) := by
  have hlead := leads_readOperand hleads c
  have hclimb := leads_climb hleads least (inner.readOperand c).1 (inner.readOperand c).2
  have hoperand := took_readOperand hleads hsound (hlead.clean_left hclimb hclean)
  exact took_climb hleads hsound hstops hadmits c _ _ hoperand hadmits.1
    (fun op _ => Phrase.strength_leftOf_le_sign op) (hlead.clean_right hclimb hclean)

end Nested

theorem parseAt_stops (limit levels : Nat) : (parseAt limit levels).Stops := by
  intro least c
  cases levels with
  | zero => exact Token.stopsAt_nil _
  | succ levels => exact Nested.stopsAt_climb _ _ _ _

theorem parseAt_sound (limit levels : Nat) : (parseAt limit levels).Sound levels := by
  induction levels with
  | zero => exact fun least c phrase _ hclean => absurd hclean (c.not_clean_halt limit)
  | succ levels ih =>
    exact Nested.sound_readExpr (parseAt_leads limit levels) ih (parseAt_stops limit levels)

end Expr

namespace Grammar

open Calculator.Expr

/-- A text on which there are no reports is an expression as a whole. -/
theorem Derives.of_parse {limit stop : Nat} {tokens : List Token}
    (hfinish : ∀ token ∈ tokens, token.kind ≠ .finish) (h : (parse limit tokens stop).2 = []) :
    ∃ need ≤ limit, Derives .expression tokens (parse limit tokens stop).1.bare need := by
  cases tokens with
  | nil => simp [parse, Cursor.report, Cursor.peek, Token.finish] at h
  | cons first more =>
    let start : Cursor := { rest := first :: more, stop }
    let found := (parseAt limit limit).read 0 start
    have hleads : start.Leads found.2 := parseAt_leads limit limit 0 start
    have hlog : (if found.2.peek.kind = .finish then found.2
        else found.2.report (.trailing found.2.peek.kind) found.2.peek.span).log = [] :=
      List.reverse_eq_nil_iff.mp h
    split at hlog
    · next hend =>
      obtain ⟨tokens, need, hrest, hneed, hd⟩ :=
        parseAt_sound limit limit 0 start .expression Phrase.expression_admits ⟨rfl, hlog⟩
      have hnil := Cursor.rest_eq_nil
        (fun token hmem => hfinish token (hleads.rest_suffix.mem hmem)) hend
      obtain rfl : first :: more = tokens := by
        rw [← List.append_nil tokens, ← hnil]
        exact hrest
      exact ⟨need, hneed, hd⟩
    · have hclean : start.Clean (found.2.report _ _) := ⟨rfl, hlog⟩
      exact absurd (hleads.clean_right (Cursor.leads_report ..) hclean)
        (Cursor.not_clean_report _ _ _)

end Grammar

end Calculator

import Calculator.Proofs.Brackets
import Calculator.Proofs.Calls

/-!
# Recovery at the parenthesis that closes

A group that is not closed where its content ends is left behind the parenthesis that closes it, and
never behind another one: whatever is malformed in between, the parser passes whole groups only.

* `Cursor.PassesGroups`: between two places, every group that is opened is closed or runs to the
  end, and no other group is closed.
* `Nested.KeepsGroups`: a reading passes whole groups. Each part of the parser keeps this, and
  `parseAt_keepsGroups` says it of every number of levels.
* `Scan.Recovers`: what is to be read, reported and spanned of a group. `Scan.Calls.recovers` says
  it of every group in a reading that does not meet the limit.
-/

namespace Calculator

open Token

namespace Cursor

/-- From `c` to `c'` only whole groups are passed: none is closed that was open at `c`, and none is
left open unless `c'` stands at the end. -/
def PassesGroups (c c' : Cursor) : Prop :=
  ∃ passed depth, c.rest = passed ++ c'.rest ∧ openGroups 0 passed = some depth ∧
    (depth = 0 ∨ c'.rest = [])

variable {c c' c'' : Cursor}

theorem PassesGroups.refl (c : Cursor) : c.PassesGroups c := ⟨[], 0, rfl, rfl, .inl rfl⟩

theorem PassesGroups.trans (h : c.PassesGroups c') (h' : c'.PassesGroups c'') :
    c.PassesGroups c'' := by
  obtain ⟨passed, depth, hrest, hdepth, hend⟩ := h
  obtain ⟨passed', depth', hrest', hdepth', hend'⟩ := h'
  rcases hend with rfl | hnil
  · refine ⟨passed ++ passed', depth', ?_, ?_, hend'⟩
    · rw [hrest, hrest', List.append_assoc]
    · rw [openGroups_append_of_eq hdepth, hdepth']
  · -- Nothing is passed from the end.
    rw [hnil] at hrest hrest'
    obtain ⟨-, hnil'⟩ := List.append_eq_nil_iff.mp hrest'.symm
    exact ⟨passed, depth, hnil' ▸ hrest, hdepth, .inr hnil'⟩

/-- A token that is no parenthesis is passed. -/
theorem passesGroups_advance (hopen : c.peek.kind ≠ .openParen)
    (hclose : c.peek.kind ≠ .closeParen) : c.PassesGroups c.advance := by
  cases hrest : c.rest with
  | nil => exact ⟨[], 0, by rw [rest_advance, hrest]; rfl, rfl, .inl rfl⟩
  | cons token rest =>
    rw [peek_of_rest hrest] at hopen hclose
    refine ⟨[token], 0, by rw [rest_advance, hrest]; rfl, ?_, .inl rfl⟩
    rw [openGroups_cons, openBehind_of_ne hopen hclose]
    rfl

/-- A report passes nothing. -/
theorem PassesGroups.report (h : c.PassesGroups c') (problem : Problem) (span : Span) :
    c.PassesGroups (c'.report problem span) := by
  unfold PassesGroups
  rwa [rest_report]

end Cursor

namespace Expr

namespace Nested

/-! ## Groups -/

/-- A reading that is not halted passes whole groups. -/
def KeepsGroups (inner : Nested) : Prop :=
  ∀ (least : Nat) (c : Cursor), (inner.read least c).2.halted = false →
    c.PassesGroups (inner.read least c).2

section Group

variable {inner : Nested} {c : Cursor}
  (hcontent : c.advance.PassesGroups (inner.read 0 c.advance).2) (kind : c.peek.kind = .openParen)
include hcontent kind

/-- Where a group ends. Either it is closed, by a parenthesis in front of which the parentheses of
the group are in balance, and this is the token behind its content exactly if that is some
parenthesis that closes. Or else it is open at the end. -/
theorem readGroup_closed_or_open :
    let content := inner.read 0 c.advance
    let group := inner.readGroup c
    (∃ inside closed, c.rest = c.peek :: (inside ++ closed :: group.2.rest) ∧ Balanced inside ∧
      closed.kind = .closeParen ∧ group.2.lastStop = closed.span.stop ∧
      (content.2.peek.kind = .closeParen ↔ content.2.rest = closed :: group.2.rest)) ∨
    (∃ depth, openGroups 0 c.advance.rest = some depth) ∧ group.2.rest = [] ∧
      content.2.peek.kind ≠ .closeParen := by
  intro content group
  obtain ⟨passed, depth, hrest, hdepth, hend⟩ : c.advance.PassesGroups content.2 := hcontent
  have hopened : c.rest = c.peek :: c.advance.rest := Cursor.rest_eq_cons_of_openParen kind
  by_cases hclose : content.2.peek.kind = .closeParen
  · have hgroup : group.2 = content.2.advance :=
      congrArg Prod.snd (inner.readGroup_of_closed hclose)
    have hnext : content.2.rest = content.2.peek :: content.2.advance.rest :=
      Cursor.rest_eq_cons (by rw [hclose]; nofun)
    obtain rfl : depth = 0 := hend.resolve_right (hnext ▸ List.cons_ne_nil _ _)
    refine .inl ⟨passed, content.2.peek, ?_, balanced_iff.mpr hdepth, hclose, ?_, ?_⟩
    · rw [hopened, hrest, hnext, hgroup]
    · rw [hgroup, Cursor.lastStop_advance_of_rest hnext]
    · rw [hgroup]
      exact iff_of_true hclose hnext
  · have hgroup := inner.readGroup_of_not_closed hclose
    have hafter : group.2.rest = (Cursor.skipGroup 0 content.2.lastStop content.2.rest).1 := by
      rw [hgroup, Cursor.skipPastClose, Cursor.rest_report, Cursor.lastStop_report]
    have hstop : group.2.lastStop = (Cursor.skipGroup 0 content.2.lastStop content.2.rest).2 := by
      rw [hgroup, Cursor.skipPastClose, Cursor.rest_report, Cursor.lastStop_report]
    rcases exists_close_or_open 0 content.2.rest with
      ⟨inside, closed, back, hnext, hkind, hinside⟩ | ⟨depth', hdepth'⟩
    · obtain rfl : depth = 0 := hend.resolve_right (by rw [hnext]; simp)
      rw [hnext, Cursor.skipGroup_of_close hinside hkind] at hafter hstop
      refine .inl ⟨passed ++ inside, closed, ?_,
        (balanced_iff.mpr hdepth).append (balanced_iff.mpr hinside), hkind, hstop, ?_⟩
      · rw [hopened, hrest, hnext, hafter, List.append_assoc]
      · refine iff_of_false hclose fun h => hclose ?_
        rw [Cursor.peek_of_rest h, hkind]
    · refine .inr ⟨?_, hafter.trans (Cursor.skipGroup_of_open hdepth' _), hclose⟩
      rcases hend with rfl | hnil
      · exact ⟨depth', by rw [hrest, openGroups_append_of_eq hdepth, hdepth']⟩
      · exact ⟨depth, by rw [hrest, hnil, List.append_nil, hdepth]⟩

theorem passesGroups_readGroup : c.PassesGroups (inner.readGroup c).2 := by
  rcases readGroup_closed_or_open hcontent kind with
    ⟨inside, closed, hrest, hinside, hclose, -⟩ | ⟨⟨depth, hdepth⟩, hnil, -⟩
  · refine ⟨c.peek :: (inside ++ [closed]), 0, ?_, ?_, .inl rfl⟩
    · rw [hrest, List.cons_append, List.append_assoc]
      rfl
    · exact (Balanced.group kind hclose hinside .nil).openGroups_eq
  · refine ⟨c.rest, depth + 1, ?_, ?_, .inr hnil⟩
    · rw [hnil, List.append_nil]
    · rw [Cursor.rest_eq_cons_of_openParen kind, openGroups_cons, openBehind_of_openParen kind,
        Option.bind_some, openGroups_add hdepth 1]

end Group

/-! ## Readings -/

section Readings

variable {inner : Nested} (h : inner.KeepsGroups) {c : Cursor}
include h

theorem passesGroups_readSigned {sign : Sign} (kind : c.peek.kind.sign? = some sign)
    (hopen : (inner.readSigned sign c).2.halted = false) :
    c.PassesGroups (inner.readSigned sign c).2 := by
  have hsign : c.PassesGroups c.advance :=
    Cursor.passesGroups_advance (fun hk => nomatch hk ▸ kind) fun hk => nomatch hk ▸ kind
  cases hs : c.advance.peek.kind.startsExpr with
  | true =>
    rw [inner.readSigned_of_starts hs] at hopen ⊢
    exact hsign.trans (h _ _ hopen)
  | false =>
    rw [inner.readSigned_of_not_starts hs]
    exact hsign.report _ _

theorem passesGroups_readRight {op : BinaryOp} (kind : c.peek.kind.binaryOp? = some op)
    (hopen : (inner.readRight op c).2.halted = false) :
    c.PassesGroups (inner.readRight op c).2 := by
  have hop : c.PassesGroups c.advance :=
    Cursor.passesGroups_advance (fun hk => nomatch hk ▸ kind) fun hk => nomatch hk ▸ kind
  cases hs : c.advance.peek.kind.startsExpr with
  | true =>
    rw [inner.readRight_of_starts hs] at hopen ⊢
    exact hop.trans (h _ _ hopen)
  | false =>
    rw [inner.readRight_of_not_starts hs]
    exact hop.report _ _

theorem passesGroups_readOperand (hopen : (inner.readOperand c).2.halted = false) :
    c.PassesGroups (inner.readOperand c).2 := by
  revert hopen
  refine inner.readOperand_cases
    (motive := fun found => found.2.halted = false → c.PassesGroups found.2) (fun hk _ => ?_)
    (fun sign kind => passesGroups_readSigned h kind) (fun kind hopen => ?_) fun hs _ => ?_
  · exact Cursor.passesGroups_advance (by rw [hk]; nofun) (by rw [hk]; nofun)
  · exact passesGroups_readGroup (h 0 _ ((inner.leads_content c).not_halted hopen)) kind
  · exact (Cursor.PassesGroups.refl c).report _ _

/-- The loop over operators goes on from a place up to which whole groups were passed. -/
theorem passesGroups_climb (hleads : inner.Leads) (least : Nat) (left : Expr) (c : Cursor)
    (hopen : (inner.climb least left c).2.halted = false) :
    c.PassesGroups (inner.climb least left c).2 := by
  fun_induction inner.climb least left c with
  | case1 | case2 => exact .refl _
  | case3 left c op hop hle right hlt ih =>
    have hright : right.2.halted = false := (leads_climb hleads ..).not_halted hopen
    exact (passesGroups_readRight h hop hright).trans (ih hopen)

theorem passesGroups_readExpr (hleads : inner.Leads) (least : Nat)
    (hopen : (inner.readExpr least c).2.halted = false) :
    c.PassesGroups (inner.readExpr least c).2 := by
  have hoperand : (inner.readOperand c).2.halted = false :=
    (leads_climb hleads ..).not_halted hopen
  exact (passesGroups_readOperand h hoperand).trans (passesGroups_climb h hleads _ _ _ hopen)

end Readings

end Nested

theorem parseAt_keepsGroups (limit levels : Nat) : (parseAt limit levels).KeepsGroups := by
  induction levels with
  | zero => exact fun least c hopen => nomatch hopen
  | succ levels ih =>
    exact fun least c => Nested.passesGroups_readExpr ih (parseAt_leads limit levels) least

end Expr

/-! ## Groups in a scan -/

namespace Cursor

/-- The index of the next token among those of the scan. -/
def index (scan : Scan) (c : Cursor) : Nat := scan.tokens.length - c.rest.length

theorem At.drop_index {scan : Scan} {c : Cursor} (h : c.At scan) :
    scan.tokens.drop (c.index scan) = c.rest := by
  obtain ⟨front, htokens, -⟩ := h.exists_front
  exact (List.suffix_iff_eq_drop.mp ⟨front, htokens.symm⟩).symm

end Cursor

namespace Scan

/-- The group that opens at `c` is read as parentheses match in the whole scan. -/
structure Recovers (scan : Scan) (c : Cursor) (content group : Expr × Cursor) : Prop where
  opened : scan.tokens[c.index scan]? = some c.peek
  /-- The group is left behind the parenthesis that closes it. -/
  closed : ∀ j closed, Closes scan.tokens (c.index scan) j → scan.tokens[j]? = some closed →
    group.2.rest = scan.tokens.drop (j + 1) ∧ group.1.span = ⟨c.peek.span.start, closed.span.stop⟩
  /-- A group that no parenthesis closes is left at the end. -/
  unclosed : (∀ j, ¬ Closes scan.tokens (c.index scan) j) →
    group.2.rest = [] ∧ group.1.span = ⟨c.peek.span.start, scan.lastStop⟩
  /-- Nothing is reported if the content ends in front of that parenthesis. -/
  silent : ∀ j, Closes scan.tokens (c.index scan) j → content.2.rest = scan.tokens.drop j →
    group.2.log = content.2.log
  /-- A content that does not is reported, with a label at the parenthesis that opens. -/
  reported : (∀ j, Closes scan.tokens (c.index scan) j → content.2.rest ≠ scan.tokens.drop j) →
    ∃ report, group.2.log = report :: content.2.log ∧
      report.toDiagnostic = ⟨"expected ')', found " ++ content.2.peek.kind.describe,
        content.2.peek.span, [⟨c.peek.span, "this '(' is not closed"⟩]⟩

variable {scan : Scan} {inner : Expr.Nested} {c : Cursor}

/-- A group that is left behind the parenthesis that closes it, or open at the end, is read as it
should. -/
theorem recovers_readGroup (hat : c.At scan) (hafter : (inner.readGroup c).2.At scan)
    (hcontent : c.advance.PassesGroups (inner.read 0 c.advance).2)
    (hopen : (inner.read 0 c.advance).2.halted = false) (kind : c.peek.kind = .openParen) :
    scan.Recovers c (inner.read 0 c.advance) (inner.readGroup c) := by
  have hopened : c.rest = c.peek :: c.advance.rest := Cursor.rest_eq_cons_of_openParen kind
  have hdrop : scan.tokens.drop (c.index scan) = c.rest := hat.drop_index
  have hindex : scan.tokens[c.index scan]? = some c.peek := by
    rw [← List.head?_drop, hdrop, hopened, List.head?_cons]
  have hspan : (inner.readGroup c).1.span = ⟨c.peek.span.start, (inner.readGroup c).2.lastStop⟩ :=
    Expr.span_withSpan ..
  have hreport (hclose : (inner.read 0 c.advance).2.peek.kind ≠ .closeParen) :
      ∃ report, (inner.readGroup c).2.log = report :: (inner.read 0 c.advance).2.log ∧
        report.toDiagnostic =
          ⟨"expected ')', found " ++ (inner.read 0 c.advance).2.peek.kind.describe,
            (inner.read 0 c.advance).2.peek.span, [⟨c.peek.span, "this '(' is not closed"⟩]⟩ := by
    rw [inner.readGroup_of_not_closed hclose, Cursor.report_of_not_halted hopen]
    exact ⟨_, rfl, rfl⟩
  rcases Expr.Nested.readGroup_closed_or_open hcontent kind with
    ⟨inside, closed, hrest, hinside, hclose, hstop, hiff⟩ | ⟨⟨depth, hdepth⟩, hnil, hclose⟩
  · obtain ⟨hcloses, hdrop'⟩ := closes_of_drop kind hclose hinside (hdrop.trans hrest)
    refine ⟨hindex, fun j token hj htoken => ?_, fun hnone => absurd hcloses (hnone _),
      fun j hj hends => ?_, fun hends => ?_⟩
    · obtain rfl := hj.unique hcloses
      rw [← List.head?_drop, hdrop', List.head?_cons, Option.some.injEq] at htoken
      rw [← List.tail_drop, hdrop', hspan, hstop, htoken]
      exact ⟨rfl, rfl⟩
    · obtain rfl := hj.unique hcloses
      rw [inner.readGroup_of_closed (hiff.mpr (hends.trans hdrop')), Cursor.log_advance]
    · exact hreport fun hk => hends _ hcloses ((hiff.mp hk).trans hdrop'.symm)
  · have hnone (j : Nat) : ¬ Closes scan.tokens (c.index scan) j :=
      not_closes_of_open (hdrop.trans hopened) hdepth
    refine ⟨hindex, fun j _ hj => absurd hj (hnone j), fun _ => ⟨hnil, ?_⟩,
      fun j hj => absurd hj (hnone j), fun _ => hreport hclose⟩
    rw [hspan, hafter.lastStop_eq hnil]

/-- Recovery respects brackets. In the reading of every text that does not meet the nesting limit,
every group is left behind the parenthesis that closes it, whatever stands in between, or at the end
if there is none. It is reported as not closed exactly if its content does not end in front of that
parenthesis. -/
theorem Calls.recovers {text : String} {nesting levels least : Nat} {c : Cursor}
    (hcall : (ofText text).Calls nesting ⟨levels + 1, least, c⟩)
    (hlimit : ¬ (ofText text).MeetsLimit nesting) (kind : c.peek.kind = .openParen) :
    (ofText text).Recovers c ((Expr.parseAt nesting levels).read 0 c.advance)
      ((Expr.parseAt nesting levels).readGroup c) := by
  have hscan := ordered_ofText text
  have hat : c.At (ofText text) := hcall.at_cursor hscan
  have hoperand : ((Expr.parseAt nesting levels).readOperand c).2.halted = false :=
    (Expr.Nested.leads_climb (Expr.parseAt_leads nesting levels) ..).not_halted
      (hcall.not_halted hlimit)
  rw [Expr.Nested.readOperand_of_openParen _ kind] at hoperand
  have hcontent := (Expr.Nested.leads_content (Expr.parseAt nesting levels) c).not_halted hoperand
  exact recovers_readGroup hat
    (Expr.Nested.at_readGroup (Expr.parseAt_fits hscan nesting levels) hat)
    (Expr.parseAt_keepsGroups nesting levels 0 _ hcontent) hcontent kind

/-- The inner group is closed behind a number too many, and the outer one is not closed at all. -/
theorem Calls.recovers_inner :
    let scan := ofText "((1 2) 3"
    let c := ({ rest := scan.tokens, stop := scan.stop } : Cursor).advance
    scan.Calls 3 ⟨2, 0, c⟩ ∧ ¬ scan.MeetsLimit 3 ∧ c.peek.kind = .openParen ∧
      scan.Recovers c ((Expr.parseAt 3 1).read 0 c.advance) ((Expr.parseAt 3 1).readGroup c) := by
  intro scan c
  have hcall : scan.Calls 3 ⟨2, 0, c⟩ :=
    ⟨by decide +kernel, .single (.content (by decide +kernel))⟩
  have hlimit : ¬ scan.MeetsLimit 3 := by decide +kernel
  have kind : c.peek.kind = .openParen := by decide +kernel
  exact ⟨hcall, hlimit, kind, hcall.recovers hlimit kind⟩

end Scan

end Calculator

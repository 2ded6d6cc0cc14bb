import Calculator.Expr.Parser

/-!
# What a reading does to its cursor

A cursor that is read on passes over tokens and adds to its log. `Cursor.Leads` says so of a cursor
and one reached from it, and every part of the parser keeps it. Two facts are worth a name: a halted
cursor reports nothing more, and a cursor can halt only with a report.

* `Expr.parseAt_leads`: reading an expression leads on.
* `Cursor.Leads.clean_left` and `Cursor.Leads.clean_right`: if nothing was reported in all, nothing
  was reported in either part.
-/

namespace Calculator

namespace Cursor

/-- The cursor `c'` is reached from `c` by reading on. -/
structure Leads (c c' : Cursor) : Prop where
  stop_eq : c'.stop = c.stop
  rest_suffix : c'.rest <:+ c.rest
  log_suffix : c.log <:+ c'.log
  /-- A halted cursor takes no further report. -/
  silent : c.halted = true → c'.log = c.log
  /-- The cursor halts with a report. -/
  halted_eq : c'.log = c.log → c'.halted = c.halted

/-- Nothing was reported between the cursor `c`, which is not halted, and `c'`. -/
def Clean (c c' : Cursor) : Prop := c.halted = false ∧ c'.log = c.log

theorem Leads.refl (c : Cursor) : c.Leads c :=
  ⟨rfl, List.suffix_rfl, List.suffix_rfl, fun _ => rfl, fun _ => rfl⟩

/-- Two parts of a log that is as long as before add nothing. -/
theorem log_eq_of_suffix {c c' c'' : Cursor} (h : c.log <:+ c'.log) (h' : c'.log <:+ c''.log)
    (heq : c''.log = c.log) : c'.log = c.log := by
  have hle := h'.length_le
  rw [heq] at hle
  exact (h.eq_of_length_le hle).symm

theorem Leads.trans {c c' c'' : Cursor} (h : c.Leads c') (h' : c'.Leads c'') : c.Leads c'' where
  stop_eq := h'.stop_eq.trans h.stop_eq
  rest_suffix := h'.rest_suffix.trans h.rest_suffix
  log_suffix := h.log_suffix.trans h'.log_suffix
  silent := fun hc => by
    have hlog := h.silent hc
    rw [h'.silent (by rw [h.halted_eq hlog, hc]), hlog]
  halted_eq := fun heq => by
    have hlog := log_eq_of_suffix h.log_suffix h'.log_suffix heq
    rw [h'.halted_eq (heq.trans hlog.symm), h.halted_eq hlog]

theorem Leads.clean_left {c c' c'' : Cursor} (h : c.Leads c') (h' : c'.Leads c'')
    (hclean : c.Clean c'') : c.Clean c' :=
  ⟨hclean.1, log_eq_of_suffix h.log_suffix h'.log_suffix hclean.2⟩

theorem Leads.clean_right {c c' c'' : Cursor} (h : c.Leads c') (h' : c'.Leads c'')
    (hclean : c.Clean c'') : c'.Clean c'' := by
  have hlog := (h.clean_left h' hclean).2
  exact ⟨by rw [h.halted_eq hlog, hclean.1], hclean.2.trans hlog.symm⟩

theorem leads_advance (c : Cursor) : c.Leads c.advance := by
  refine ⟨c.stop_advance, ?_, c.log_advance.symm ▸ List.suffix_rfl, fun _ => c.log_advance,
    fun _ => c.halted_advance⟩
  unfold advance
  split
  · exact List.suffix_rfl
  · next token rest h => rw [h]; exact List.suffix_cons token rest

theorem leads_report (c : Cursor) (problem : Problem) (span : Span) :
    c.Leads (c.report problem span) := by
  unfold report
  split
  · exact .refl c
  · next h =>
    refine ⟨rfl, List.suffix_rfl, List.suffix_cons _ _, fun hc => absurd hc h, fun _ => rfl⟩

/-- A report is recorded, unless the cursor is halted. -/
theorem not_clean_report (c : Cursor) (problem : Problem) (span : Span) :
    ¬ c.Clean (c.report problem span) := by
  rintro ⟨hc, hlog⟩
  rw [report, hc] at hlog
  exact List.cons_ne_self _ _ hlog

theorem leads_halt (c : Cursor) (limit : Nat) : c.Leads (c.halt limit) := by
  have h := leads_report c (.tooNested limit) c.peek.span
  refine ⟨h.stop_eq, List.nil_suffix, h.log_suffix, h.silent, fun hlog => ?_⟩
  cases hc : c.halted with
  | false => exact absurd ⟨hc, hlog⟩ (not_clean_report c (.tooNested limit) c.peek.span)
  | true => rfl

/-- Meeting the limit is reported. -/
theorem not_clean_halt (c : Cursor) (limit : Nat) : ¬ c.Clean (c.halt limit) :=
  not_clean_report c (.tooNested limit) c.peek.span

theorem skipGroup_suffix (depth lastStop : Nat) (tokens : List Token) :
    (skipGroup depth lastStop tokens).1 <:+ tokens := by
  fun_induction skipGroup depth lastStop tokens with
  | case1 => exact List.suffix_rfl
  | case2 => exact List.suffix_cons _ _
  | case3 lastStop token rest depth hkind ih => exact ih.trans (List.suffix_cons _ _)
  | case4 depth lastStop token rest hkind ih => exact ih.trans (List.suffix_cons _ _)
  | case5 depth lastStop token rest h₁ h₂ h₃ ih => exact ih.trans (List.suffix_cons _ _)

theorem leads_skipPastClose (c : Cursor) : c.Leads c.skipPastClose :=
  ⟨rfl, skipGroup_suffix 0 c.lastStop c.rest, List.suffix_rfl, fun _ => rfl, fun _ => rfl⟩

end Cursor

namespace Expr

namespace Nested

/-- Every reading leads on. -/
def Leads (inner : Nested) : Prop :=
  ∀ (least : Nat) (c : Cursor), c.Leads (inner.read least c).2

/-- Behind its content, a group is led on to its end. -/
theorem leads_content (inner : Nested) (c : Cursor) :
    (inner.read 0 c.advance).2.Leads (inner.readGroup c).2 := by
  by_cases hclose : (inner.read 0 c.advance).2.peek.kind = .closeParen
  · rw [inner.readGroup_of_closed hclose]
    exact Cursor.leads_advance _
  · rw [inner.readGroup_of_not_closed hclose]
    exact (Cursor.leads_report ..).trans (Cursor.leads_skipPastClose _)

variable {inner : Nested} (h : inner.Leads)
include h

theorem leads_readSigned (sign : Sign) (c : Cursor) : c.Leads (inner.readSigned sign c).2 := by
  refine c.leads_advance.trans ?_
  cases hs : c.advance.peek.kind.startsExpr with
  | true => rw [inner.readSigned_of_starts hs]; exact h ..
  | false => rw [inner.readSigned_of_not_starts hs]; exact Cursor.leads_report ..

theorem leads_readRight (op : BinaryOp) (c : Cursor) : c.Leads (inner.readRight op c).2 := by
  refine c.leads_advance.trans ?_
  cases hs : c.advance.peek.kind.startsExpr with
  | true => rw [inner.readRight_of_starts hs]; exact h ..
  | false => rw [inner.readRight_of_not_starts hs]; exact Cursor.leads_report ..

theorem leads_readGroup (c : Cursor) : c.Leads (inner.readGroup c).2 :=
  (c.leads_advance.trans (h 0 _)).trans (inner.leads_content c)

theorem leads_readOperand (c : Cursor) : c.Leads (inner.readOperand c).2 := by
  unfold readOperand
  dsimp only
  split
  · exact c.leads_advance
  · exact leads_readSigned h _ c
  · exact leads_readSigned h _ c
  · exact leads_readGroup h c
  · exact c.leads_report _ _

theorem leads_climb (least : Nat) (left : Expr) (c : Cursor) :
    c.Leads (inner.climb least left c).2 := by
  fun_induction inner.climb least left c with
  | case1 => exact .refl _
  | case2 => exact .refl _
  | case3 left c op hop hp right hlt ih => exact (leads_readRight h op c).trans ih

theorem leads_readExpr (least : Nat) (c : Cursor) : c.Leads (inner.readExpr least c).2 :=
  (leads_readOperand h c).trans (leads_climb h least _ _)

end Nested

theorem parseAt_leads (limit levels : Nat) : (parseAt limit levels).Leads := by
  induction levels with
  | zero => exact fun _ c => c.leads_halt limit
  | succ levels ih => exact Nested.leads_readExpr ih

end Expr

end Calculator

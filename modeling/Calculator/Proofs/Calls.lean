import Calculator.Proofs.Containment
import Mathlib.Logic.Relation

/-!
# The calls that a reading makes

A reading of an expression asks for further expressions one level deeper: for the operand of a sign,
for the content of a group and for right operands. What is to be shown of every expression that the
parser reads in a text is shown of all calls that are made from the first one.

* `Expr.Call`: a call for an expression. `Expr.Call.Makes` says which calls one makes itself, and
  `Nested.Climbs` where the loop over operators stands in between.
* `Scan.Calls`: the calls in the reading of a scan. `Scan.Calls.at_cursor` is the invariant of the
  places at which they are made.
* `Scan.Calls.not_halted`: where the limit is not met in all, it is met in no call.
-/

namespace Calculator

namespace Expr

/-- A call for an expression: the levels left for it, the least strength that an operator may have
in it, and the place at which it is made. -/
structure Call where
  levels : Nat
  least : Nat
  cursor : Cursor

/-- The loop over operators comes from one place to another. -/
inductive Nested.Climbs (inner : Nested) (least : Nat) : Cursor → Cursor → Prop
  | refl (c : Cursor) : inner.Climbs least c c
  | step {c c' : Cursor} {op : BinaryOp} (kind : c.peek.kind.binaryOp? = some op)
      (holds : least ≤ op.leftBinding) (behind : inner.Climbs least (inner.readRight op c).2 c') :
      inner.Climbs least c c'

namespace Call

/-- What is found by a call. -/
def found (limit : Nat) (call : Call) : Expr × Cursor :=
  (parseAt limit call.levels).read call.least call.cursor

/-- A call makes another one. A call without levels makes none. -/
inductive Makes (limit : Nat) : Call → Call → Prop
  /-- For the operand of the sign that the call starts with. -/
  | signed {levels least : Nat} {c : Cursor} {sign : Sign}
      (kind : c.peek.kind.sign? = some sign) (starts : c.advance.peek.kind.startsExpr = true) :
      Makes limit ⟨levels + 1, least, c⟩ ⟨levels, Sign.binding, c.advance⟩
  /-- For the content of the group that the call starts with. -/
  | content {levels least : Nat} {c : Cursor} (kind : c.peek.kind = .openParen) :
      Makes limit ⟨levels + 1, least, c⟩ ⟨levels, 0, c.advance⟩
  /-- For the right operand of an operator to which the loop comes. -/
  | right {levels least : Nat} {c c' : Cursor} {op : BinaryOp}
      (climbs : (parseAt limit levels).Climbs least ((parseAt limit levels).readOperand c).2 c')
      (kind : c'.peek.kind.binaryOp? = some op) (holds : least ≤ op.leftBinding)
      (starts : c'.advance.peek.kind.startsExpr = true) :
      Makes limit ⟨levels + 1, least, c⟩ ⟨levels, op.rightBinding, c'.advance⟩

end Call

/-! ## What one call keeps -/

/-- The loop goes on from every place to which it comes. -/
theorem Nested.Climbs.exists_climb_eq {inner : Nested} {least : Nat} {c c' : Cursor}
    (h : inner.Climbs least c c') (left : Expr) :
    ∃ left', inner.climb least left c = inner.climb least left' c' := by
  induction h generalizing left with
  | refl => exact ⟨left, rfl⟩
  | step kind holds _ ih =>
    rw [inner.climb_of_le left kind holds]
    exact ih _

variable {scan : Scan} {limit : Nat}

theorem Nested.Climbs.at_end {inner : Nested} (hinner : inner.Fits scan) {least : Nat}
    {c c' : Cursor} (h : inner.Climbs least c c') (hc : c.At scan) : c'.At scan := by
  induction h with
  | refl => exact hc
  | step kind _ _ ih => exact ih (fits_readRight hinner hc kind).1.at_end

namespace Call

variable {call call' : Call}

/-- From what is found by a call, the reading leads on to what is found by the one that made it. -/
theorem Makes.leads_found (h : Makes limit call call') :
    (call'.found limit).2.Leads (call.found limit).2 := by
  cases h with
  | @signed levels least c sign kind starts =>
    have hoperand : ((parseAt limit levels).readOperand c).2 =
        (found limit ⟨levels, Sign.binding, c.advance⟩).2 := by
      rw [Nested.readOperand_of_sign _ kind, Nested.readSigned_of_starts _ starts]
      rfl
    exact hoperand ▸ Nested.leads_climb (parseAt_leads limit levels) ..
  | @content levels least c kind =>
    have hoperand : (parseAt limit levels).readOperand c = (parseAt limit levels).readGroup c :=
      Nested.readOperand_of_openParen _ kind
    refine (Nested.leads_content (parseAt limit levels) c).trans (hoperand ▸ ?_)
    exact Nested.leads_climb (parseAt_leads limit levels) ..
  | @right levels least c c' op climbs kind holds starts =>
    have hright : (parseAt limit levels).readRight op c' =
        found limit ⟨levels, op.rightBinding, c'.advance⟩ :=
      Nested.readRight_of_starts _ starts
    obtain ⟨left, hclimb⟩ := climbs.exists_climb_eq ((parseAt limit levels).readOperand c).1
    have hfound : found limit ⟨levels + 1, least, c⟩ = (parseAt limit levels).climb least left c' :=
      hclimb
    rw [hfound, Nested.climb_of_le _ _ kind holds, hright]
    exact Nested.leads_climb (parseAt_leads limit levels) ..

/-- Calls are made at places in the scan. -/
theorem Makes.at_cursor (hscan : Grammar.Ordered scan.tokensToEnd) (h : Makes limit call call')
    (hc : call.cursor.At scan) : call'.cursor.At scan := by
  cases h with
  | signed | content => exact hc.advance
  | @right levels least c c' op climbs kind holds starts =>
    have hfits := parseAt_fits hscan limit levels
    have hoperand := Nested.fits_readOperand hscan hfits hc (parseAt_leads limit levels)
    exact (climbs.at_end hfits hoperand.1.at_end).advance

end Call

end Expr

/-! ## The calls in a scan -/

namespace Scan

/-- The call is made in the reading of the scan: it is the one for all of its tokens, or made on the
way from that one. A scan without tokens is not read. -/
def Calls (nesting : Nat) (scan : Scan) (call : Expr.Call) : Prop :=
  scan.tokens ≠ [] ∧ Relation.ReflTransGen (Expr.Call.Makes nesting)
    ⟨nesting, 0, { rest := scan.tokens, stop := scan.stop }⟩ call

variable {nesting : Nat} {scan : Scan} {call : Expr.Call}

theorem Calls.at_cursor (hscan : Grammar.Ordered scan.tokensToEnd) (h : scan.Calls nesting call) :
    call.cursor.At scan := by
  obtain ⟨-, hcalls⟩ := h
  induction hcalls with
  | refl => exact Cursor.at_start scan
  | tail _ makes ih => exact makes.at_cursor hscan ih

/-- From what is found by a call, the reading leads on to its end. -/
theorem Calls.leads_readAll (h : scan.Calls nesting call) :
    (call.found nesting).2.Leads (Expr.readAll nesting scan.tokens scan.stop).2 := by
  obtain ⟨hne, hcalls⟩ := h
  induction hcalls with
  | refl =>
    rw [Expr.readAll_of_ne_nil _ _ hne]
    exact Cursor.leads_reportTrailing _
  | tail _ makes ih => exact makes.leads_found.trans ih

/-- The limit is met by no call, if it is not met in all. -/
theorem Calls.not_halted (h : scan.Calls nesting call) (hlimit : ¬ scan.MeetsLimit nesting) :
    (call.found nesting).2.halted = false :=
  h.leads_readAll.not_halted (Bool.eq_false_iff.mpr hlimit)

end Scan

end Calculator

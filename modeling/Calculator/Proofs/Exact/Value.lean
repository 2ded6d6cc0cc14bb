import Calculator.Proofs.DepthLimit
import Calculator.Proofs.Exact.Arithmetic

/-!
# Trees with integer values

`Expr.exactValue?` is the value of a tree over the integers without bounds, where every part of the
tree has an integer value that fits 64 bits. A tree evaluates to an integer exactly if it has such a
value, and then all its parts evaluate to integers.

* `Expr.value_eq_int_iff`: the plain recursion gives an integer exactly if it is the exact one.
* `Expr.exactValue?_part`: the parts of a tree with an exact value have one.
* `Limits.evaluate_eq_ok_int_iff`: the same for an evaluation within a depth limit.
-/

namespace Calculator

/-- A text that is read as an integer has no mark of a float. -/
theorem Literal.hasFloatMark_of_int? {text : List Char} {n : Int64} (h : int? text = some n) :
    hasFloatMark text = false := by
  have hdigits : ∀ c ∈ (Numeral.splitSign text).2, c.isDigit = true := by
    unfold int? at h
    dsimp only at h
    split at h
    · nomatch h
    · next hall =>
      rw [Bool.or_eq_true, not_or, Bool.not_eq_true', Bool.not_eq_false] at hall
      exact List.all_eq_true.mp hall.2
  have hsign : hasFloatMark (Numeral.signText (Numeral.splitSign text).1) = false := by
    match (Numeral.splitSign text).1 with
    | none | some .plus | some .minus => rfl
  rw [← Numeral.splitSign_append text]
  unfold hasFloatMark at hsign ⊢
  rw [List.any_append, hsign, Bool.false_or, List.any_eq_false]
  intro c hc hmark
  have hdigit := hdigits c hc
  simp only [Bool.or_eq_true, beq_iff_eq] at hmark
  rcases hmark with (rfl | rfl) | rfl <;> nomatch hdigit

/-- A literal is an integer exactly if it is read as this integer. -/
theorem Literal.value_eq_int_iff {text : String} {span : Span} {n : Int64} :
    value text span = .ok (.int n) ↔ int? text.toList = some n := by
  unfold value
  constructor
  · intro h
    split at h
    · next m hm =>
      split at hm
      · nomatch hm
      · rw [hm, Number.int.inj (Except.ok.inj h)]
    · split at h
      · exact absurd h (Operation.finiteAt_ne_int span _ n)
      · nomatch h
  · intro h
    rw [hasFloatMark_of_int? h, if_neg (by nofun), h]

namespace Expr

/-- The exact value of a tree, if it is an integer and every part of the tree has an integer value
that fits 64 bits. A literal has the value of its text. -/
def exactValue? : Expr → Option Int
  | number text _ => (Literal.int? text.toList).map Int64.toInt
  | signed sign operand _ => do
    let a ← operand.exactValue?
    fit? (sign.exact a)
  | binary op _ left right _ => do
    let a ← left.exactValue?
    let b ← right.exactValue?
    let c ← op.operation.exactValue? a b
    fit? c
  | invalid _ => none

/-- An exact value fits 64 bits. -/
theorem exists_toInt_of_exactValue? {e : Expr} {z : Int} (h : e.exactValue? = some z) :
    ∃ n : Int64, n.toInt = z := by
  cases e with
  | number text span =>
    obtain ⟨n, -, hn⟩ := Option.map_eq_some_iff.mp h
    exact ⟨n, hn⟩
  | signed sign operand span =>
    obtain ⟨a, -, h⟩ := Option.bind_eq_some_iff.mp h
    exact exists_toInt_of_fit? h
  | binary op opSpan left right span =>
    obtain ⟨a, -, h⟩ := Option.bind_eq_some_iff.mp h
    obtain ⟨b, -, h⟩ := Option.bind_eq_some_iff.mp h
    obtain ⟨c, -, h⟩ := Option.bind_eq_some_iff.mp h
    exact exists_toInt_of_fit? h
  | invalid span => nomatch h

/-- The plain recursion gives an integer exactly if it is the exact value. -/
theorem value_eq_int_iff {e : Expr} {n : Int64} :
    e.value = .ok (.int n) ↔ e.exactValue? = some n.toInt := by
  induction e generalizing n with
  | number text span =>
    rw [value, exactValue?, Literal.value_eq_int_iff, Option.map_eq_some_iff]
    constructor
    · exact fun h => ⟨n, h, rfl⟩
    · rintro ⟨m, hm, h⟩
      rwa [Int64.toInt_inj.mp h] at hm
  | invalid span =>
    rw [value, exactValue?]
    simp
  | signed sign operand span ih =>
    constructor
    · intro h
      obtain ⟨x, hx, happly⟩ := map_eq_ok.mp h
      obtain ⟨a, rfl, ha⟩ := Sign.apply_eq_int_iff.mp happly
      exact Option.bind_eq_some_iff.mpr ⟨a.toInt, ih.mp hx, fit?_eq_some_iff.mpr ha⟩
    · intro h
      obtain ⟨y, hy, hfit⟩ := Option.bind_eq_some_iff.mp h
      obtain ⟨a, rfl⟩ := exists_toInt_of_exactValue? hy
      have happly := Sign.apply_eq_int_iff.mpr ⟨a, rfl, fit?_eq_some_iff.mp hfit⟩
      exact map_eq_ok.mpr ⟨.int a, ih.mpr hy, happly⟩
  | binary op opSpan left right span ihl ihr =>
    constructor
    · intro h
      obtain ⟨x, hx, hright⟩ := bind_eq_ok.mp h
      obtain ⟨y, hy, happly⟩ := bind_eq_ok.mp hright
      obtain ⟨a, b, rfl, rfl, hab⟩ := Operation.apply_eq_int_iff.mp happly
      refine Option.bind_eq_some_iff.mpr ⟨a.toInt, ihl.mp hx, ?_⟩
      refine Option.bind_eq_some_iff.mpr ⟨b.toInt, ihr.mp hy, ?_⟩
      exact Option.bind_eq_some_iff.mpr ⟨n.toInt, hab, fit?_eq_some_iff.mpr rfl⟩
    · intro h
      obtain ⟨y, hy, hright⟩ := Option.bind_eq_some_iff.mp h
      obtain ⟨z, hz, hexact⟩ := Option.bind_eq_some_iff.mp hright
      obtain ⟨c, hc, hfit⟩ := Option.bind_eq_some_iff.mp hexact
      obtain ⟨a, rfl⟩ := exists_toInt_of_exactValue? hy
      obtain ⟨b, rfl⟩ := exists_toInt_of_exactValue? hz
      rw [fit?_eq_some_iff.mp hfit] at hc
      refine bind_eq_ok.mpr ⟨.int a, ihl.mpr hy, bind_eq_ok.mpr ⟨.int b, ihr.mpr hz, ?_⟩⟩
      exact Operation.apply_eq_int_iff.mpr ⟨a, b, rfl, rfl, hc⟩

/-- The parts of a tree with an exact value have one. -/
theorem exactValue?_part {e part : Expr} (hpart : part ∈ e.postorder) {z : Int}
    (h : e.exactValue? = some z) : ∃ y, part.exactValue? = some y := by
  induction e generalizing z with
  | number | invalid =>
    obtain rfl := List.mem_singleton.mp hpart
    exact ⟨z, h⟩
  | signed sign operand span ih =>
    rcases mem_postorder_signed.mp hpart with hpart | rfl
    · obtain ⟨a, ha, -⟩ := Option.bind_eq_some_iff.mp h
      exact ih hpart ha
    · exact ⟨z, h⟩
  | binary op opSpan left right span ihl ihr =>
    rcases mem_postorder_binary.mp hpart with hpart | hpart | rfl
    · obtain ⟨a, ha, -⟩ := Option.bind_eq_some_iff.mp h
      exact ihl hpart ha
    · obtain ⟨a, -, h⟩ := Option.bind_eq_some_iff.mp h
      obtain ⟨b, hb, -⟩ := Option.bind_eq_some_iff.mp h
      exact ihr hpart hb
    · exact ⟨z, h⟩

end Expr

namespace Limits

/-- An evaluation within a limit gives an integer exactly if this is the exact value and the limit
has the levels for the tree. -/
theorem evaluate_eq_ok_int_iff {limits : Limits} {e : Expr} {n : Int64} :
    limits.evaluate e = .ok (.int n) ↔ e.exactValue? = some n.toInt ∧ e.nesting ≤ limits.depth := by
  rw [← Expr.value_eq_int_iff]
  constructor
  · intro h
    have hnesting := Expr.nesting_le_of_evalAt h
    exact ⟨(Expr.eval_eq_value hnesting).symm.trans h, hnesting⟩
  · rintro ⟨h, hnesting⟩
    exact (Expr.eval_eq_value hnesting).trans h

/-- A tree evaluates to an integer `z` exactly if `z` is its exact value and the limit has the
levels for the tree. Then every part of the tree evaluates to an integer: none of them is a float
and none was rounded or wrapped. -/
theorem evaluate_int_iff_exact (limits : Limits) (e : Expr) :
    (∀ z : Int, (∃ n : Int64, limits.evaluate e = .ok (.int n) ∧ n.toInt = z) ↔
      e.exactValue? = some z ∧ e.nesting ≤ limits.depth) ∧
    ∀ n : Int64, limits.evaluate e = .ok (.int n) → ∀ part ∈ e.postorder,
      ∃ m : Int64, limits.evaluate part = .ok (.int m) ∧ part.exactValue? = some m.toInt := by
  refine ⟨fun z => ⟨?_, ?_⟩, fun n h part hpart => ?_⟩
  · rintro ⟨n, h, rfl⟩
    exact evaluate_eq_ok_int_iff.mp h
  · rintro ⟨h, hnesting⟩
    obtain ⟨n, rfl⟩ := Expr.exists_toInt_of_exactValue? h
    exact ⟨n, evaluate_eq_ok_int_iff.mpr ⟨h, hnesting⟩, rfl⟩
  · obtain ⟨hexact, hnesting⟩ := evaluate_eq_ok_int_iff.mp h
    obtain ⟨y, hy⟩ := Expr.exactValue?_part hpart hexact
    obtain ⟨m, rfl⟩ := Expr.exists_toInt_of_exactValue? hy
    have hle := Nat.le_trans (Expr.nesting_le_of_mem_postorder hpart) hnesting
    exact ⟨m, evaluate_eq_ok_int_iff.mpr ⟨hy, hle⟩, hy⟩

/-- The least integer of 64 bits is a power of minus two, and so is its base an integer. -/
theorem evaluate_int_iff_exact_least :
    let base : Expr := .signed .minus (.number "2" (.point 0)) (.point 0)
    let e : Expr := .binary .caret (.point 0) base (.number "63" (.point 0)) (.point 0)
    ∃ n m : Int64, ({ depth := 3 } : Limits).evaluate e = .ok (.int n) ∧ n.toInt = -2 ^ 63 ∧
      ({ depth := 3 } : Limits).evaluate base = .ok (.int m) ∧ base.exactValue? = some m.toInt := by
  intro base e
  have hexact : e.exactValue? = some (-2 ^ 63) ∧ e.nesting ≤ 3 := by decide
  obtain ⟨n, hn, hleast⟩ := ((evaluate_int_iff_exact { depth := 3 } e).1 _).mpr hexact
  obtain ⟨m, hm, hbase⟩ := (evaluate_int_iff_exact { depth := 3 } e).2 n hn base (by decide)
  exact ⟨n, m, hn, hleast, hm, hbase⟩

end Limits

end Calculator

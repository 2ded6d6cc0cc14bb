import Calculator.Expr.Basic

/-!
# The left spine of a tree

A chain such as `a + b + c + d` nests to the left as deep as it is long. `Expr.leftSpine` lays it
out flat: its leftmost operand `a` and one link for each operator above it, innermost first.

* `Expr.foldl_attach_leftSpine`: attaching the links to the leftmost operand gives the tree back.
* `Expr.leftSpine_fst_ne_binary`: the leftmost operand is no binary node, so the spine is complete.
* `Expr.sizeOf_leftSpine_fst_lt`, `Expr.sizeOf_right_lt_of_mem`: the operands along a spine are
  smaller than the tree.
-/

namespace Calculator

/-- A binary node without its left operand. -/
structure Link where
  op : BinaryOp
  opSpan : Span
  right : Expr
  /-- The span of the whole node. -/
  span : Span
deriving Repr

namespace Link

/-- The binary node with `left` as its left operand. -/
def attach (left : Expr) (link : Link) : Expr :=
  .binary link.op link.opSpan left link.right link.span

end Link

namespace Expr

/-- The leftmost operand of the tree and the links above it, in front of `links`. -/
def spineOnto (links : List Link) : Expr → Expr × List Link
  | binary op opSpan left right span => left.spineOnto (⟨op, opSpan, right, span⟩ :: links)
  | e => (e, links)

/-- The leftmost operand of the tree and the links above it, innermost first. -/
def leftSpine (e : Expr) : Expr × List Link := e.spineOnto []

theorem spineOnto_eq (links : List Link) (e : Expr) :
    e.spineOnto links = (e.leftSpine.1, e.leftSpine.2 ++ links) := by
  induction e generalizing links with
  | number | signed | invalid => rfl
  | binary op opSpan left right span ihl ihr =>
    simp only [leftSpine, spineOnto]
    rw [ihl, ihl [_]]
    simp

@[simp] theorem leftSpine_binary (op : BinaryOp) (opSpan : Span) (left right : Expr)
    (span : Span) : (binary op opSpan left right span).leftSpine =
      (left.leftSpine.1, left.leftSpine.2 ++ [⟨op, opSpan, right, span⟩]) :=
  spineOnto_eq _ left

theorem foldl_attach_leftSpine (e : Expr) :
    e.leftSpine.2.foldl Link.attach e.leftSpine.1 = e := by
  induction e with
  | number | signed | invalid => rfl
  | binary op opSpan left right span ihl ihr => simp [ihl, Link.attach]

theorem leftSpine_fst_ne_binary (e : Expr) (op : BinaryOp) (opSpan : Span) (left right : Expr)
    (span : Span) : e.leftSpine.1 ≠ binary op opSpan left right span := by
  induction e with
  | number | signed | invalid => simp [leftSpine, spineOnto]
  | binary op' opSpan' left' right' span' ihl ihr => simpa using ihl

/-- The leftmost operand is no greater than the tree. -/
theorem sizeOf_leftSpine_fst_le (e : Expr) : sizeOf e.leftSpine.1 ≤ sizeOf e := by
  induction e with
  | number | signed | invalid => exact Nat.le_refl _
  | binary op opSpan left right span ihl ihr =>
    rw [leftSpine_binary, binary.sizeOf_spec]
    dsimp only
    omega

/-- The leftmost operand of a chain is smaller than the chain. -/
theorem sizeOf_leftSpine_fst_lt (op : BinaryOp) (opSpan : Span) (left right : Expr) (span : Span) :
    sizeOf (binary op opSpan left right span).leftSpine.1 <
      sizeOf (binary op opSpan left right span) := by
  have hle := sizeOf_leftSpine_fst_le left
  rw [leftSpine_binary, binary.sizeOf_spec]
  dsimp only
  omega

/-- The right operands along a spine are smaller than the tree. -/
theorem sizeOf_right_lt_of_mem {e : Expr} {link : Link} (h : link ∈ e.leftSpine.2) :
    sizeOf link.right < sizeOf e := by
  induction e with
  | number | signed | invalid => nomatch h
  | binary op opSpan left right span ihl ihr =>
    rw [leftSpine_binary, List.mem_append, List.mem_singleton] at h
    rw [binary.sizeOf_spec]
    rcases h with h | rfl
    · have := ihl h
      omega
    · dsimp only
      omega

end Expr

end Calculator

import Calculator.Proofs.DepthLimit

/-!
# The fault of an evaluation

An evaluation that fails, and does not stop at its limit, fails at a node: the first one in
postorder that has no value though its operands do. The error is that of this node and carries its
span.

* `Expr.Faults`: a node fails itself; `Expr.FirstFault`: it is the first one of a tree, and
  `Expr.FirstFault.unique` says that there is no other one.
* `Expr.exists_firstFault_of_evalAt`: a limited evaluation that fails has reached the first fault.
* `Expr.value_ne_tooDeep`: the plain recursion does not fail for its depth.
-/

namespace Calculator

/-! ## Errors carry the span that they are given -/

theorem span?_of_finiteAt {x : Float} {span : Span} {error : EvalError}
    (h : finiteAt span x = .error error) : error.span? = some span := by
  rcases finiteAt_cases span x with ⟨-, hx⟩ | ⟨-, ⟨-, hx⟩ | ⟨-, hx⟩⟩
  · obtain rfl := Except.error.inj (h.symm.trans hx)
    rfl
  · obtain rfl := Except.error.inj (h.symm.trans hx)
    rfl
  · cases h.symm.trans hx

theorem Literal.span?_of_value {text : String} {span : Span} {error : EvalError}
    (h : value text span = .error error) : error.span? = some span := by
  unfold value at h
  split at h
  · nomatch h
  · split at h
    · exact span?_of_finiteAt h
    · obtain rfl := Except.error.inj h
      rfl

namespace Operation

variable {operation : Operation} {span : Span} {error : EvalError}

theorem span?_of_onFloats {x y : Float} (h : operation.onFloats x y span = .error error) :
    error.span? = some span := by
  rcases operation.onFloats_cases x y span with ⟨-, hx⟩ | ⟨z, hz⟩
  · obtain rfl := Except.error.inj (h.symm.trans hx)
    rfl
  · exact span?_of_finiteAt (hz.symm.trans h)

theorem span?_of_apply {left right : Number} (h : operation.apply left right span = .error error) :
    error.span? = some span := by
  rcases operation.apply_cases left right span with
    ⟨-, happly⟩ | ⟨-, ⟨a, b, n, -, -, -, happly⟩ | happly⟩
  · obtain rfl := Except.error.inj (h.symm.trans happly)
    rfl
  · cases h.symm.trans happly
  · exact span?_of_onFloats (happly.symm.trans h)

end Operation

namespace Expr

/-! ## Faults -/

/-- The operands of the node have values, and the node itself fails. A sign never does. -/
def Faults : Expr → EvalError → Prop
  | number text span, error => Literal.value text span = .error error
  | signed .., _ => False
  | binary op _ left right span, error => ∃ a b, left.value = .ok a ∧ right.value = .ok b ∧
      op.operation.apply a b span = .error error
  | e@(invalid span), error => error = .disallowed e.kindName span

/-- The part is the first node of the tree in postorder that has no value: the nodes before it,
its operands among them, have values, and it fails itself. -/
def FirstFault (e part : Expr) (error : EvalError) : Prop :=
  part.Faults error ∧ ∃ before after, e.postorder = before ++ part :: after ∧
    ∀ node ∈ before, ∃ n, node.value = .ok n

variable {e part part' : Expr} {error error' : EvalError} {limit levels depth : Nat}

theorem Faults.value_eq (h : part.Faults error) : part.value = .error error := by
  cases part with
  | number => exact h
  | signed => exact h.elim
  | binary op opSpan left right span =>
    obtain ⟨a, b, hl, hr, happly⟩ := h
    rw [value, hl, hr]
    exact happly
  | invalid =>
    rw [show error = _ from h]
    rfl

/-- The error of a fault is put down to its span. -/
theorem Faults.span?_eq (h : part.Faults error) : error.span? = some part.span := by
  cases part with
  | number => exact Literal.span?_of_value h
  | signed => exact h.elim
  | binary op opSpan left right span =>
    obtain ⟨a, b, -, -, happly⟩ := h
    exact Operation.span?_of_apply happly
  | invalid =>
    rw [show error = _ from h]
    rfl

/-- A node fails with one error. -/
theorem Faults.unique (h : part.Faults error) (h' : part.Faults error') : error = error' :=
  Except.error.inj (h.value_eq.symm.trans h'.value_eq)

/-- The parts of a tree that has a value have values. -/
theorem exists_value_of_mem_postorder {n : Number} (h : e.value = .ok n)
    (hpart : part ∈ e.postorder) : ∃ m, part.value = .ok m := by
  induction e generalizing n with
  | number | invalid =>
    obtain rfl := List.mem_singleton.mp hpart
    exact ⟨n, h⟩
  | signed sign operand span ih =>
    rcases mem_postorder_signed.mp hpart with hpart | rfl
    · obtain ⟨a, ha, -⟩ := map_eq_ok.mp h
      exact ih ha hpart
    · exact ⟨n, h⟩
  | binary op opSpan left right span ihl ihr =>
    rcases mem_postorder_binary.mp hpart with hpart | hpart | rfl
    · obtain ⟨a, ha, -⟩ := bind_eq_ok.mp h
      exact ihl ha hpart
    · obtain ⟨a, -, h⟩ := bind_eq_ok.mp h
      obtain ⟨b, hb, -⟩ := bind_eq_ok.mp h
      exact ihr hb hpart
    · exact ⟨n, h⟩

theorem FirstFault.mem (h : e.FirstFault part error) : part ∈ e.postorder := by
  obtain ⟨-, before, after, hpostorder, -⟩ := h
  rw [hpostorder]
  exact List.mem_append_right before List.mem_cons_self

/-- A tree has one first fault. -/
theorem FirstFault.unique (h : e.FirstFault part error) (h' : e.FirstFault part' error') :
    error = error' := by
  obtain ⟨hpart, before, after, hpostorder, hbefore⟩ := h
  obtain ⟨hpart', before', after', hpostorder', hbefore'⟩ := h'
  -- A node with a value does not fail, so neither of the two nodes stands before the other.
  have hne {node : Expr} {error : EvalError} (hnode : ∃ n, node.value = .ok n) :
      ¬node.Faults error := fun hfaults => by
    obtain ⟨n, hn⟩ := hnode
    cases hn.symm.trans hfaults.value_eq
  rcases List.append_eq_append_iff.mp (hpostorder.symm.trans hpostorder') with
    ⟨between, rfl, hsplit⟩ | ⟨between, rfl, hsplit⟩
  · rcases List.cons_eq_append_iff.mp hsplit with ⟨rfl, hsplit⟩ | ⟨between, rfl, -⟩
    · obtain ⟨rfl, -⟩ := List.cons.inj hsplit
      exact hpart.unique hpart'
    · exact absurd hpart (hne (hbefore' part (by simp)))
  · rcases List.cons_eq_append_iff.mp hsplit with ⟨rfl, hsplit⟩ | ⟨between, rfl, -⟩
    · obtain ⟨rfl, -⟩ := List.cons.inj hsplit
      exact hpart.unique hpart'
    · exact absurd hpart' (hne (hbefore part' (by simp)))

/-- A node that fails itself is the first fault of its own tree. -/
theorem firstFault_self (before : List Expr) (h : part.Faults error)
    (hpostorder : part.postorder = before ++ [part])
    (hbefore : ∀ node ∈ before, ∃ n, node.value = .ok n) : part.FirstFault part error :=
  ⟨h, before, [], hpostorder, hbefore⟩

/-- The first fault of an operand is that of the tree, if the nodes before the operand have
values. -/
theorem FirstFault.of_operand {operand : Expr} (h : operand.FirstFault part error)
    {before after : List Expr} (hpostorder : e.postorder = before ++ operand.postorder ++ after)
    (hbefore : ∀ node ∈ before, ∃ n, node.value = .ok n) : e.FirstFault part error := by
  obtain ⟨hfaults, before', after', heq, hbefore'⟩ := h
  refine ⟨hfaults, before ++ before', after' ++ after, ?_, fun node hnode => ?_⟩
  · rw [hpostorder, heq]
    simp
  · rcases List.mem_append.mp hnode with hnode | hnode
    · exact hbefore node hnode
    · exact hbefore' node hnode

/-- Along a spine, the first fault is one of an operand, or the node above operands that have
values. -/
theorem exists_firstFault_of_spineValue
    (heval : ∀ e : Expr, e.evalAt limit levels depth = .error error →
      ∃ part, e.FirstFault part error ∧ part.nesting ≤ levels)
    (h : e.spineValue (evalAt limit levels depth) = .error error) :
    ∃ part, e.FirstFault part error ∧ part.nesting ≤ levels + 1 := by
  induction e with
  | number | invalid | signed =>
    obtain ⟨part, hpart, hle⟩ := heval _ h
    exact ⟨part, hpart, Nat.le_succ_of_le hle⟩
  | binary op opSpan left right span ihl ihr =>
    have hpostorder := postorder_binary op opSpan left right span
    have hfront : (binary op opSpan left right span).postorder =
        [] ++ left.postorder ++ (right.postorder ++ [binary op opSpan left right span]) := by
      rw [hpostorder, List.append_assoc, List.nil_append]
    rw [spineValue] at h
    cases hl : left.spineValue (evalAt limit levels depth) with
    | error error' =>
      rw [hl] at h
      obtain rfl := Except.error.inj h
      obtain ⟨part, hpart, hle⟩ := ihl hl
      exact ⟨part, hpart.of_operand hfront (List.forall_mem_nil _), hle⟩
    | ok a =>
      have hspine := spineNesting_le_of_spineValue (fun _ _ => nesting_le_of_evalAt) hl
      have hleft : left.value = .ok a :=
        (spineValue_eq_value (evalAt_eq_value limit levels depth) left hspine).symm.trans hl
      have hlefts : ∀ node ∈ left.postorder, ∃ n, node.value = .ok n :=
        fun node => exists_value_of_mem_postorder hleft
      cases hr : right.evalAt limit levels depth with
      | error error' =>
        rw [hl, hr] at h
        obtain rfl := Except.error.inj h
        obtain ⟨part, hpart, hle⟩ := heval right hr
        exact ⟨part, hpart.of_operand hpostorder hlefts, Nat.le_succ_of_le hle⟩
      | ok b =>
        rw [hl, hr] at h
        have hnesting := nesting_le_of_evalAt hr
        have hright : right.value = .ok b :=
          (evalAt_eq_value limit levels depth right hnesting).symm.trans hr
        refine ⟨_, firstFault_self _ ⟨a, b, hleft, hright, h⟩ hpostorder fun node hnode => ?_,
          Nat.succ_le_succ (Nat.max_le.mpr ⟨hspine, hnesting⟩)⟩
        rcases List.mem_append.mp hnode with hnode | hnode
        · exact hlefts node hnode
        · exact exists_value_of_mem_postorder hright hnode

/-- A limited evaluation that fails, but not at its limit, has reached the first fault of the tree
with levels to spare for it. -/
theorem exists_firstFault_of_evalAt (hlimit : depth + levels = limit)
    (h : e.evalAt limit levels depth = .error error) (hne : error ≠ .tooDeep limit limit) :
    ∃ part, e.FirstFault part error ∧ part.nesting ≤ levels := by
  induction levels generalizing depth e with
  | zero =>
    obtain rfl : depth = limit := hlimit
    exact absurd (Except.error.inj (h.symm.trans (evalAt_zero depth depth e))) hne
  | succ levels ih =>
    have hlimit' : depth + 1 + levels = limit := by omega
    cases e with
    | number text span =>
      exact ⟨_, firstFault_self [] h rfl (List.forall_mem_nil _),
        Nat.succ_le_succ (Nat.zero_le levels)⟩
    | invalid span =>
      exact ⟨_, firstFault_self [] (Except.error.inj h).symm rfl (List.forall_mem_nil _),
        Nat.succ_le_succ (Nat.zero_le levels)⟩
    | signed sign operand span =>
      cases hoperand : operand.evalAt limit levels (depth + 1) with
      | ok a =>
        rw [evalAt, hoperand] at h
        cases h
      | error error' =>
        rw [evalAt, hoperand] at h
        obtain rfl := Except.error.inj h
        obtain ⟨part, hpart, hle⟩ := ih hlimit' hoperand
        have hfront : (signed sign operand span).postorder =
            [] ++ operand.postorder ++ [signed sign operand span] := postorder_signed ..
        exact ⟨part, hpart.of_operand hfront (List.forall_mem_nil _), Nat.le_succ_of_le hle⟩
    | binary op opSpan left right span =>
      rw [evalAt_binary] at h
      exact exists_firstFault_of_spineValue (fun _ => ih hlimit') h

/-- The plain recursion fails at the first fault of the tree. -/
theorem exists_firstFault_of_value (h : e.value = .error error) :
    ∃ part, e.FirstFault part error := by
  -- Any limit will do that has the levels for the tree and that the error is not about.
  obtain ⟨limit, hle, hne⟩ : ∃ limit, e.nesting ≤ limit ∧ error ≠ .tooDeep limit limit := by
    cases error with
    | tooDeep depth limit =>
      exact ⟨e.nesting + limit + 1, by omega, fun h => by injection h; omega⟩
    | _ => exact ⟨e.nesting, Nat.le_refl _, nofun⟩
  rw [← eval_eq_value hle] at h
  obtain ⟨part, hpart, -⟩ := exists_firstFault_of_evalAt (Nat.zero_add limit) h hne
  exact ⟨part, hpart⟩

/-- The plain recursion does not fail for its depth. -/
theorem value_ne_tooDeep (e : Expr) (depth limit : Nat) :
    e.value ≠ .error (.tooDeep depth limit) := by
  intro h
  obtain ⟨part, hfaults, -⟩ := exists_firstFault_of_value h
  nomatch hfaults.span?_eq

end Expr

end Calculator

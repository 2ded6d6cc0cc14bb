import Calculator.Grammar

/-!
# Beginnings of expressions

Read from the left, all that matters of the tokens so far is the number of open groups and what may
come next. `Grammar.Place` is this state, and `Place.run` follows the tokens through it, without the
precedence of operators: that decides on the tree, and not on the tokens that may follow.

* `Derives.run_eq`: the tokens of a phrase lead from a place where an operand is due to one behind
  an operand.
* `Viable`: a beginning of a sentence, with the end of the text as its last token.
* `Viable.exists_run`: every beginning of a sentence leads to a place.
* `Place.awaits_iff`: an operand is waited for exactly behind operators and signs.
* `Place.exists_run_complete`: every place but the last leads to the end of an expression.
-/

namespace Calculator

/-- A token of this kind is an operator or a sign, and so an operand comes behind it. -/
def Token.Kind.AwaitsOperand (kind : Token.Kind) : Prop :=
  (∃ op, kind.binaryOp? = some op) ∨ ∃ sign, kind.sign? = some sign

namespace Grammar

/-- What may come next, behind the tokens of an expression so far and in so many open groups. -/
inductive Place where
  /-- An operand, at the start of the text or of a group. -/
  | opened (depth : Nat)
  /-- An operand, behind an operator or a sign. -/
  | waiting (depth : Nat)
  /-- An operator, the end of a group or the end of the text. -/
  | complete (depth : Nat)
  /-- Nothing, behind the end of the text. -/
  | finished
deriving DecidableEq, Repr

namespace Place

/-- The place behind the first token of an operand. -/
def operandStep (depth : Nat) : Token.Kind → Option Place
  | .number => some (complete depth)
  | .openParen => some (opened (depth + 1))
  | .plus | .minus => some (waiting depth)
  | _ => none

/-- The place behind one more token, if a token of this kind may stand there. -/
def step : Place → Token.Kind → Option Place
  | opened depth, kind | waiting depth, kind => operandStep depth kind
  | complete 0, .finish => some finished
  | complete (depth + 1), .closeParen => some (complete depth)
  | complete depth, kind => kind.binaryOp?.map fun _ => waiting depth
  | finished, _ => none

/-- The place behind tokens of these kinds. -/
def run (place : Place) (kinds : List Token.Kind) : Option Place := kinds.foldlM step place

/-- An operand in so many open groups is due at the place. -/
def Due (place : Place) (depth : Nat) : Prop := place = opened depth ∨ place = waiting depth

variable {place next : Place} {depth : Nat} {kind : Token.Kind} {kinds : List Token.Kind}

theorem due_opened (depth : Nat) : (opened depth).Due depth := .inl rfl

theorem due_waiting (depth : Nat) : (waiting depth).Due depth := .inr rfl

theorem Due.step_eq (h : place.Due depth) : place.step kind = operandStep depth kind := by
  rcases h with rfl | rfl <;> rfl

theorem operandStep_eq_none_iff : operandStep depth kind = none ↔ kind.startsExpr = false := by
  cases kind <;> simp [operandStep, Token.Kind.startsExpr]

theorem operandStep_of_sign? {sign : Sign} (h : kind.sign? = some sign) :
    operandStep depth kind = some (waiting depth) := by
  cases kind <;> simp_all [operandStep, Token.Kind.sign?]

theorem step_complete_of_binaryOp? {op : BinaryOp} (h : kind.binaryOp? = some op) :
    (complete depth).step kind = some (waiting depth) := by
  cases depth <;> cases kind <;> simp_all [step, Token.Kind.binaryOp?]

/-- In a group, an operator may stand behind an operand, or the end of the group. -/
theorem step_complete_succ_eq_none_iff :
    (complete (depth + 1)).step kind = none ↔ kind.binaryOp? = none ∧ kind ≠ .closeParen := by
  cases kind <;> simp [step, Token.Kind.binaryOp?]

/-- Outside all groups, an operator may stand behind an operand, or the end of the text. -/
theorem step_complete_zero_eq_none_iff :
    (complete 0).step kind = none ↔ kind.binaryOp? = none ∧ kind ≠ .finish := by
  cases kind <;> simp [step, Token.Kind.binaryOp?]

/-- Behind a token, an operand is waited for if the token is an operator or a sign. -/
theorem awaits_iff_of_step (h : place.step kind = some next) :
    (∃ depth, next = waiting depth) ↔ kind.AwaitsOperand := by
  rcases place with depth | depth | depth | _
  · cases kind <;> simp_all [step, operandStep, Token.Kind.AwaitsOperand, Token.Kind.binaryOp?,
      Token.Kind.sign?] <;> subst h <;> simp
  · cases kind <;> simp_all [step, operandStep, Token.Kind.AwaitsOperand, Token.Kind.binaryOp?,
      Token.Kind.sign?] <;> subst h <;> simp
  · cases depth <;> cases kind <;> simp_all [step, Token.Kind.AwaitsOperand,
      Token.Kind.binaryOp?, Token.Kind.sign?] <;> subst h <;> simp
  · cases h

theorem run_append (place : Place) (kinds kinds' : List Token.Kind) :
    place.run (kinds ++ kinds') = (place.run kinds).bind fun next => next.run kinds' :=
  List.foldlM_append

@[simp] theorem run_singleton (place : Place) (kind : Token.Kind) :
    place.run [kind] = place.step kind := by
  simp [run]

theorem run_cons (place : Place) (kind : Token.Kind) (kinds : List Token.Kind) :
    place.run (kind :: kinds) = (place.step kind).bind fun next => next.run kinds :=
  List.foldlM_cons

theorem run_append_of (h : place.run kinds = some next) (kinds' : List Token.Kind) :
    place.run (kinds ++ kinds') = next.run kinds' := by
  rw [run_append, h, Option.bind_some]

/-- The beginnings of what leads to a place do so too. -/
theorem exists_run_of_prefix {kinds' : List Token.Kind} (hkinds : kinds <+: kinds')
    (h : place.run kinds' = some next) : ∃ next', place.run kinds = some next' := by
  obtain ⟨more, rfl⟩ := hkinds
  rw [run_append] at h
  obtain ⟨next', hnext, -⟩ := Option.bind_eq_some_iff.mp h
  exact ⟨next', hnext⟩

/-- An operand is waited for exactly if the last token is an operator or a sign. -/
theorem awaits_iff (h : (opened 0).run kinds = some place) :
    (∃ depth, place = waiting depth) ↔ ∃ kind ∈ kinds.getLast?, kind.AwaitsOperand := by
  rcases List.eq_nil_or_concat kinds with rfl | ⟨front, kind, rfl⟩
  · obtain rfl : opened 0 = place := Option.some.inj h
    exact ⟨nofun, nofun⟩
  · rw [List.concat_eq_append, run_append] at h
    obtain ⟨before, -, hstep⟩ := Option.bind_eq_some_iff.mp h
    rw [run_singleton] at hstep
    rw [awaits_iff_of_step hstep]
    simp

/-- Groups that are open can be closed. -/
theorem run_replicate_closeParen (depth : Nat) :
    (complete depth).run (List.replicate depth .closeParen) = some (complete 0) := by
  induction depth with
  | zero => rfl
  | succ depth ih => rw [List.replicate_succ, run_cons]; exact ih

/-- Only the end of the text leads to the last place. -/
theorem step_eq_finished_iff :
    place.step kind = some finished ↔ place = complete 0 ∧ kind = .finish := by
  rcases place with depth | depth | (_ | depth) | _ <;> cases kind <;>
    simp [step, operandStep, Token.Kind.binaryOp?]

/-- The end of the text leads nowhere else. -/
theorem eq_finished_of_step_finish (h : place.step .finish = some next) : next = finished := by
  rcases place with depth | depth | (_ | depth) | _ <;> cases h
  rfl

/-- The end of the text is passed only at the end. -/
theorem finish_notMem_of_run (h : place.run kinds = some next) (hnext : next ≠ finished) :
    .finish ∉ kinds := by
  induction kinds generalizing place with
  | nil => exact List.not_mem_nil
  | cons kind kinds ih =>
    rw [run_cons] at h
    obtain ⟨place', hstep, hrun⟩ := Option.bind_eq_some_iff.mp h
    rw [List.mem_cons, not_or]
    refine ⟨fun hkind => ?_, ih hrun⟩
    subst hkind
    obtain rfl := eq_finished_of_step_finish hstep
    cases kinds with
    | nil => exact hnext (Option.some.inj hrun).symm
    | cons => nomatch hrun

/-- From every place but the last, some tokens complete an expression. -/
theorem exists_run_complete (h : place ≠ finished) :
    ∃ kinds, place.run kinds = some (complete 0) := by
  have operand (depth : Nat) : ∃ kinds, (complete depth).run kinds = some (complete 0) :=
    ⟨_, run_replicate_closeParen depth⟩
  cases place with
  | opened depth | waiting depth =>
    obtain ⟨kinds, hkinds⟩ := operand depth
    exact ⟨.number :: kinds, hkinds⟩
  | complete depth => exact operand depth
  | finished => exact absurd rfl h

end Place

variable {phrase : Phrase} {tokens : List Token} {e : Expr} {need : Nat}

/-- The tokens of a phrase lead from a place where an operand is due to the place behind it. -/
theorem Derives.run_eq (h : Derives phrase tokens e need) {place : Place} {depth : Nat}
    (hdue : place.Due depth) : place.run (tokens.map Token.kind) = some (.complete depth) := by
  induction h generalizing place depth with
  | number kind =>
    rw [List.map_singleton, kind, Place.run_singleton, hdue.step_eq]
    rfl
  | group open_kind close_kind _ ih =>
    rw [List.map_cons, List.map_append, Place.run_cons, hdue.step_eq, open_kind]
    show (Place.opened (depth + 1)).run _ = _
    rw [Place.run_append_of (ih (Place.due_opened _)), List.map_singleton, close_kind]
    rfl
  | signed kind _ ih =>
    rw [List.map_cons, Place.run_cons, hdue.step_eq, Place.operandStep_of_sign? kind]
    exact ih (Place.due_waiting depth)
  | binary kind _ _ ihl ihr =>
    rw [List.map_append, List.map_cons, Place.run_append_of (ihl hdue), Place.run_cons,
      Place.step_complete_of_binaryOp? kind]
    exact ihr (Place.due_waiting depth)
  | ofPrimary _ ih | ofSigned _ ih | ofFactor _ ih | ofTerm _ ih => exact ih hdue

/-- Tokens of these kinds are the beginning of an expression that has the end of the text behind
it. -/
def Viable (kinds : List Token.Kind) : Prop :=
  ∃ tokens e need, Derives .expression tokens e need ∧
    kinds <+: tokens.map Token.kind ++ [.finish]

/-- The beginning of a sentence leads to a place. -/
theorem Viable.exists_run {kinds : List Token.Kind} (h : Viable kinds) :
    ∃ place, (Place.opened 0).run kinds = some place := by
  obtain ⟨tokens, e, need, hd, hkinds⟩ := h
  have hrun : (Place.opened 0).run (tokens.map Token.kind ++ [.finish]) = some .finished := by
    rw [Place.run_append_of (hd.run_eq (Place.due_opened 0))]
    rfl
  exact Place.exists_run_of_prefix hkinds hrun

end Grammar

end Calculator

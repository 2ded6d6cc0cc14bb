import Calculator.Proofs.Machine.Steps

/-!
# The return from a call

A call for an expression is left where the machine stands at a return over the stack over which the
call was made. While the call is open, this stack lies at the bottom of the stack, and what was
called for inside the call lies above it; so the returns from inner calls are not taken for its own.

* `Machine.RunsIn`: steps inside a call. `Machine.Returns`: all of them, up to the return.
* `Machine.Sound.exists_returns`: every call is left, and `Machine.Sound.depth_eq_of_returns`: with
  as many calls open as there were before.
* `Machine.Sound.pos_lt_of_returns`: a call that has a level left, in front of a token with which an
  expression starts, passes this token.
-/

namespace Calculator.Expr.Machine

variable {m : Machine} {next : Token} {frame : Frame} {stack : List Frame} {s s' s'' : State}

/-- In this state the machine returns from a call that was made over the stack. -/
def State.Leaves (stack : List Frame) (s : State) : Prop :=
  s.stack = stack ∧ ∃ found, s.control = .leave found

theorem State.not_leaves_of_enter {least : Nat} (control : s.control = .enter least) :
    ¬ s.Leaves stack :=
  fun ⟨_, _, hleave⟩ => nomatch control.symm.trans hleave

theorem State.not_leaves_of_inside {point : Point} (control : s.control = .inside point) :
    ¬ s.Leaves stack :=
  fun ⟨_, _, hleave⟩ => nomatch control.symm.trans hleave

/-- The machine takes any number of steps inside the call that was made over the stack. -/
abbrev RunsIn (m : Machine) (stack : List Frame) : State → State → Prop :=
  Relation.ReflTransGen fun s s' => ¬ s.Leaves stack ∧ m.step s = some s'

theorem RunsIn.runs (h : m.RunsIn stack s s') : m.Runs s s' :=
  Relation.ReflTransGen.mono (fun _ _ hstep => hstep.2) _ _ h

/-- From `s`, the call over the stack is left in `s'`, and in no state in between. -/
structure Returns (m : Machine) (stack : List Frame) (s s' : State) : Prop where
  runs_in : m.RunsIn stack s s'
  leaves : s'.Leaves stack

theorem Returns.runs (h : m.Returns stack s s') : m.Runs s s' := h.runs_in.runs

/-- What is ahead of a step inside the call is ahead of the state behind the step. -/
theorem Returns.behind (h : m.Returns stack s s'') (hinside : ¬ s.Leaves stack)
    (hstep : m.step s = some s') : m.Returns stack s' s'' := by
  rcases h.runs_in.cases_head with rfl | ⟨_, ⟨-, hstep'⟩, hbehind⟩
  · exact absurd h.leaves hinside
  · obtain rfl := Option.some.inj (hstep.symm.trans hstep')
    exact ⟨hbehind, h.leaves⟩

/-- A call is left in one state only. -/
theorem Returns.unique (h : m.Returns stack s s') (h' : m.Returns stack s s'') : s' = s'' := by
  obtain ⟨hruns, hleaves⟩ := h
  induction hruns using Relation.ReflTransGen.head_induction_on with
  | refl =>
    rcases h'.runs_in.cases_head with heq | ⟨_, ⟨hinside, -⟩, -⟩
    · exact heq
    · exact absurd hleaves hinside
  | head hstep _ ih => exact ih (h'.behind hstep.1 hstep.2)

/-- The machine is in a call that was made over the stack, or in a further call that this one
made. -/
structure State.Within (stack : List Frame) (s : State) : Prop where
  stack_suffix : stack <:+ s.stack
  reads : s.control.reads = true

theorem State.within_of_enter {least : Nat} (control : s.control = .enter least) :
    s.Within s.stack :=
  ⟨List.suffix_rfl, by rw [control]; rfl⟩

/-- A call ends in no other way than by a return. -/
theorem State.Within.move (h : s.Within stack) (hinside : ¬ s.Leaves stack)
    (hmove : m.Move next s s') : s'.Within stack := by
  obtain ⟨hsuffix, hreads⟩ := h
  cases hmove with
  | empty control | start control | accept control | trailing control =>
    rw [control] at hreads
    nomatch hreads
  | enter | go | leave => exact ⟨hsuffix, rfl⟩
  | giveUp | report => exact ⟨by simpa using hsuffix, rfl⟩
  | advance control lawful => exact ⟨by rwa [State.advance_of_ne s lawful.1], rfl⟩
  | call => exact ⟨hsuffix.trans (List.suffix_cons ..), rfl⟩
  | @resume found frame rest control stack_eq =>
    -- The frame that is taken up lies above the stack, or this is the return itself.
    rw [stack_eq, List.suffix_cons_iff] at hsuffix
    rcases hsuffix with rfl | hsuffix
    · exact absurd ⟨stack_eq, found, control⟩ hinside
    · exact ⟨hsuffix, rfl⟩
  | @finish found control stack_eq =>
    rw [stack_eq, List.suffix_nil] at hsuffix
    exact absurd ⟨stack_eq.trans hsuffix.symm, found, control⟩ hinside

theorem State.Within.not_leaves (h : s.Within (frame :: stack)) : ¬ s.Leaves stack :=
  fun ⟨hstack, _⟩ => by
    have hlength := h.stack_suffix.length_le
    rw [hstack] at hlength
    exact Nat.not_succ_le_self _ hlength

/-- Steps inside an inner call are steps inside the outer one. -/
theorem RunsIn.of_cons (h : m.RunsIn (frame :: stack) s s') (hwithin : s.Within (frame :: stack)) :
    m.RunsIn stack s s' := by
  induction h using Relation.ReflTransGen.head_induction_on with
  | refl => exact .refl
  | head hstep _ ih =>
    obtain ⟨next, -, hmove⟩ := exists_move hstep.2
    exact .head ⟨hwithin.not_leaves, hstep.2⟩ (ih (hwithin.move hstep.1 hmove))

/-- Behind the return from an inner call, the machine goes on inside the outer one. -/
theorem Returns.runsIn_of_cons (h : m.Returns (frame :: stack) s s')
    (hwithin : s.Within (frame :: stack)) (hstep : m.step s' = some s'') :
    m.RunsIn stack s s'' := by
  have hinside : ¬ s'.Leaves stack := fun ⟨hstack, _⟩ =>
    List.cons_ne_self _ _ (h.leaves.1.symm.trans hstack)
  exact (h.runs_in.of_cons hwithin).tail ⟨hinside, hstep⟩

namespace Sound

variable (h : m.Sound s)
include h

/-- Every call is left. -/
theorem exists_returns (hwithin : s.Within stack) : ∃ s', m.Returns stack s s' := by
  induction h using Sound.induction with
  | ahead s h ih =>
    by_cases hleaves : s.Leaves stack
    · exact ⟨s, .refl, hleaves⟩
    · have hdone (tree : Expr) : s.control ≠ .done tree := fun hcontrol => by
        have hreads := hwithin.reads
        rw [hcontrol] at hreads
        nomatch hreads
      obtain ⟨s', hstep⟩ := h.exists_step hdone
      obtain ⟨next, -, hmove⟩ := exists_move hstep
      obtain ⟨s'', hbehind⟩ := ih s' hstep (hwithin.move hleaves hmove)
      exact ⟨s'', .head ⟨hleaves, hstep⟩ hbehind.runs_in, hbehind.leaves⟩

/-- A call is left with the calls open that were open when it was made. -/
theorem depth_eq_of_returns {least : Nat} (control : s.control = .enter least)
    (hreturns : m.Returns s.stack s s') : s'.depth = s.depth := by
  obtain ⟨hstack, found, hleave⟩ := hreturns.leaves
  rw [(h.runs hreturns.runs).1.depth_eq, h.depth_eq, State.calls, State.calls, control, hleave,
    hstack]

/-- An operand starts with a token that is passed. -/
theorem exists_step_operand {least : Nat} (hnext : m.row[s.pos]? = some next)
    (control : s.control = .inside (.operand least)) (hstarts : next.kind.startsExpr = true) :
    ∃ s', m.step s = some s' ∧ s.pos < s'.pos := by
  obtain ⟨lastStop, hlast⟩ := exists_lastStop? h.pos_le
  obtain ⟨point, hact⟩ : ∃ point, (Point.operand least).act next lastStop = .advance point := by
    cases hk : next.kind <;> rw [hk] at hstarts <;> cases hstarts <;> simp [Point.act, hk]
  have hlawful := (Point.operand least).act_lawful next lastStop
  rw [hact] at hlawful
  refine ⟨(s.advance next).goTo (.inside point), ?_, ?_⟩
  · simp only [step_eq hnext, stepAt, control, hlast, Option.bind_some, hact, State.perform]
  · rw [State.advance_of_ne _ hlawful.1]
    exact Nat.lt_succ_self _

/-- A call that is made with a level left, in front of a token with which an expression starts,
passes this token with its second step. -/
theorem pos_lt_of_returns {least : Nat} (hnext : m.row[s.pos]? = some next)
    (control : s.control = .enter least) (hroom : s.depth < m.limit)
    (hstarts : next.kind.startsExpr = true) (hreturns : m.Returns stack s s') :
    s.pos < s'.pos := by
  have henter : m.step s =
      some { s with depth := s.depth + 1, control := .inside (.operand least) } := by
    rw [step_eq hnext, stepAt, control]
    exact if_pos hroom
  have hentered := h.step henter
  obtain ⟨s'', hoperand, hlt⟩ := hentered.exists_step_operand hnext rfl hstarts
  have hbehind := (hreturns.behind (State.not_leaves_of_enter control) henter).behind
    (State.not_leaves_of_inside rfl) hoperand
  exact Nat.lt_of_lt_of_le hlt ((hentered.step hoperand).runs hbehind.runs).2

end Sound

end Calculator.Expr.Machine

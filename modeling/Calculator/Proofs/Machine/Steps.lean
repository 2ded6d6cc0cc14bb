import Calculator.Expr.Machine
import Mathlib.Logic.Relation

/-!
# The steps of a machine

What a machine may do in one step is said once, by the rules of `Move`; whatever a step keeps is
proved by a case for each rule. An act inside a call keeps to a law that is a matter of the next
token and the point alone: it passes no token for the end, calls for nothing once the machine has
given up, and comes nearer to the end of the call.

* `Machine.Act.Lawful`: the law, and `Machine.Point.act_lawful`: every act keeps to it.
* `Machine.Move`: the kinds of steps. `Machine.exists_move`: a step is one of them.
* `Machine.Sound`: the machine stands at a token and has counted its calls right and within the
  limit. `Machine.Sound.move`: each step keeps this, and `Machine.Sound.runs`: so does a run.
* `Machine.Parked`: the machine has given up. `Machine.Parked.move` and `Machine.Parked.runs` say
  what it still does.
* `Machine.Sound.exists_step`: no step fails, and `Machine.Sound.exists_done`: a run comes to its
  end.
-/

namespace Calculator.Expr.Machine

/-! ## The row of tokens -/

variable {m : Machine} {next : Token} {pos : Nat}

theorem length_row (m : Machine) : m.row.length = m.tokens.length + 1 :=
  List.length_append

theorem row_length (m : Machine) : m.row[m.tokens.length]? = some m.finish :=
  List.getElem?_concat_length

theorem row_eq_some {front back : List Token} (h : m.row = front ++ next :: back) :
    m.row[front.length]? = some next := by
  rw [h, List.getElem?_append_right (Nat.le_refl _), Nat.sub_self, List.getElem?_cons_zero]

/-- The token for the end stands behind the others, and nowhere else. -/
theorem kind_eq_finish_iff (h : m.row[pos]? = some next) :
    next.kind = .finish ↔ pos = m.tokens.length := by
  obtain ⟨hlt, rfl⟩ := List.getElem?_eq_some_iff.mp h
  rw [length_row] at hlt
  rcases Nat.lt_or_eq_of_le (Nat.le_of_lt_succ hlt) with hlt' | rfl
  · refine iff_of_false (fun hkind => ?_) (Nat.ne_of_lt hlt')
    simp only [row, List.getElem_append_left hlt'] at hkind
    exact m.kind_ne_finish _ (List.getElem_mem hlt') hkind
  · rw [row_length, Option.some.injEq] at h
    exact iff_of_true (by rw [← h, m.finish_kind]) rfl

theorem exists_row (h : pos ≤ m.tokens.length) : ∃ next, m.row[pos]? = some next :=
  ⟨_, List.getElem?_eq_getElem (by rw [length_row]; omega)⟩

theorem exists_lastStop? (h : pos ≤ m.tokens.length) :
    ∃ lastStop, m.lastStop? pos = some lastStop := by
  cases pos with
  | zero => exact ⟨0, rfl⟩
  | succ pos =>
    obtain ⟨token, htoken⟩ := exists_row (m := m) (Nat.le_of_succ_le h)
    exact ⟨token.span.stop, by rw [lastStop?, htoken, Option.map_some]⟩

theorem giveUp_eq (m : Machine) (s : State) : m.giveUp s = some { s with
    pos := m.tokens.length, gaveUp := true,
    control := .leave (invalid (.point m.finish.span.start)) } := by
  have hlast : m.row.length - 1 = m.tokens.length := by rw [length_row, Nat.add_sub_cancel]
  rw [giveUp, hlast, row_length]
  rfl

/-! ## Kinds of steps -/

namespace State

variable (s : State) (r : Report) (c : Control)

@[simp] theorem pos_report : (s.report r).pos = s.pos := by unfold report; split <;> rfl

@[simp] theorem depth_report : (s.report r).depth = s.depth := by unfold report; split <;> rfl

@[simp] theorem gaveUp_report : (s.report r).gaveUp = s.gaveUp := by unfold report; split <;> rfl

@[simp] theorem stack_report : (s.report r).stack = s.stack := by unfold report; split <;> rfl

/-- Nothing is reported any more. -/
theorem log_report {s : State} (h : s.gaveUp = true) (r : Report) : (s.report r).log = s.log := by
  rw [report, if_pos h]

@[simp] theorem pos_goTo : (s.goTo c).pos = s.pos := rfl

@[simp] theorem depth_goTo : (s.goTo c).depth = s.depth := rfl

@[simp] theorem gaveUp_goTo : (s.goTo c).gaveUp = s.gaveUp := rfl

@[simp] theorem stack_goTo : (s.goTo c).stack = s.stack := rfl

@[simp] theorem control_goTo : (s.goTo c).control = c := rfl

theorem advance_of_ne {next : Token} (h : next.kind ≠ .finish) :
    s.advance next = { s with pos := s.pos + 1 } := by
  rw [advance, if_neg h]

end State

/-- Is this a point to which a call may come after the machine has given up? -/
def Point.unwinds : Point → Bool
  | operand _ | ask _ => false
  | resume .. | skip .. | group .. | climb .. => true

/-- A bound on the steps that a call may take from the point on without passing a token. -/
def Point.rank : Point → Nat
  | ask _ => 11
  | resume .. => 6
  | skip .. => 5
  | operand _ | group .. => 4
  | climb .. => 3

/-- What every act keeps to. A token that is passed pays for the steps up to the next one. -/
def Act.Lawful (next : Token) (point : Point) : Act → Prop
  | .go point' | .report _ point' => point'.unwinds = true ∧ point'.rank < point.rank
  | .advance point' => next.kind ≠ .finish ∧ point'.rank < point.rank + 9
  | .call _ => point.unwinds = false ∧ 10 < point.rank
  | .leave _ => 2 < point.rank

theorem Point.act_lawful (next : Token) (lastStop : Nat) (point : Point) :
    (point.act next lastStop).Lawful next point := by
  cases point with
  | operand least => cases hk : next.kind <;> simp [act, hk, Act.Lawful, unwinds, rank]
  | ask frame => cases hm : frame.missing? next.kind <;> simp [act, hm, Act.Lawful, unwinds, rank]
  | resume frame found =>
    cases frame with
    | signed | right => simp [act, Act.Lawful, unwinds, rank]
    | content least opened =>
      by_cases hclose : next.kind = .closeParen <;>
        simp [act, hclose, Act.Lawful, unwinds, rank]
  | skip least opened content depth =>
    cases hk : next.kind <;> cases depth <;> simp [act, hk, Act.Lawful, unwinds, rank]
  | group least opened content => simp [act, Act.Lawful, unwinds, rank]
  | climb least left =>
    cases hop : next.kind.binaryOp? with
    | none => simp [act, hop, Act.Lawful, rank]
    | some op =>
      have hne : next.kind ≠ .finish := Token.Kind.ne_finish_of_binaryOp? hop
      by_cases hlt : op.leftBinding < least <;> simp [act, hop, hlt, hne, Act.Lawful, rank]

/-- A machine moves on in front of the token `next`. There is a rule for each kind of step. -/
inductive Move (m : Machine) (next : Token) (s : State) : State → Prop
  | empty (control : s.control = .start) (kind : next.kind = .finish) :
    Move m next s
      ((s.report ⟨.emptyExpression, next.span⟩).goTo (.trailing (invalid next.span)))
  | start (control : s.control = .start) (kind : next.kind ≠ .finish) :
    Move m next s (s.goTo (.enter 0))
  | enter {least : Nat} (control : s.control = .enter least) (room : s.depth < m.limit) :
    Move m next s { s with depth := s.depth + 1, control := .inside (.operand least) }
  | giveUp {least : Nat} (control : s.control = .enter least) (room : ¬ s.depth < m.limit) :
    Move m next s { s.report ⟨.tooNested m.limit, next.span⟩ with
      pos := m.tokens.length, gaveUp := true,
      control := .leave (invalid (.point m.finish.span.start)) }
  | go {point point' : Point} (control : s.control = .inside point)
      (lawful : (Act.go point').Lawful next point) : Move m next s (s.goTo (.inside point'))
  | report {point point' : Point} {report : Report} (control : s.control = .inside point)
      (lawful : (Act.report report point').Lawful next point) :
    Move m next s ((s.report report).goTo (.inside point'))
  | advance {point point' : Point} (control : s.control = .inside point)
      (lawful : (Act.advance point').Lawful next point) :
    Move m next s ((s.advance next).goTo (.inside point'))
  | call {point : Point} {frame : Frame} (control : s.control = .inside point)
      (lawful : (Act.call frame).Lawful next point) :
    Move m next s { s with stack := frame :: s.stack, control := .enter frame.binding }
  | leave {point : Point} {found : Expr} {depth : Nat} (control : s.control = .inside point)
      (lawful : (Act.leave found).Lawful next point) (depth_eq : s.depth = depth + 1) :
    Move m next s { s with depth, control := .leave found }
  | resume {found : Expr} {frame : Frame} {stack : List Frame} (control : s.control = .leave found)
      (stack_eq : s.stack = frame :: stack) :
    Move m next s { s with stack, control := .inside (.resume frame found) }
  | finish {found : Expr} (control : s.control = .leave found) (stack_eq : s.stack = []) :
    Move m next s (s.goTo (.trailing found))
  | accept {tree : Expr} (control : s.control = .trailing tree) (kind : next.kind = .finish) :
    Move m next s (s.goTo (.done tree))
  | trailing {tree : Expr} (control : s.control = .trailing tree) (kind : next.kind ≠ .finish) :
    Move m next s ((s.report ⟨.trailing next.kind, next.span⟩).goTo (.done tree))

variable {s s' : State}

/-- Inside a call the machine moves as it is laid down for the point. -/
theorem move_of_perform {point : Point} {act : Act} (control : s.control = .inside point)
    (lawful : act.Lawful next point) (h : s.perform next act = some s') : m.Move next s s' := by
  cases act with
  | go point' => exact Option.some.inj h ▸ .go control lawful
  | report report point' => exact Option.some.inj h ▸ .report control lawful
  | advance point' => exact Option.some.inj h ▸ .advance control lawful
  | call frame => exact Option.some.inj h ▸ .call control lawful
  | leave found =>
    simp only [State.perform] at h
    split at h
    · nomatch h
    · next depth hdepth => exact Option.some.inj h ▸ .leave control lawful hdepth

theorem exists_move (h : m.step s = some s') :
    ∃ next, m.row[s.pos]? = some next ∧ m.Move next s s' := by
  obtain ⟨next, hnext, h⟩ := Option.bind_eq_some_iff.mp h
  refine ⟨next, hnext, ?_⟩
  unfold stepAt at h
  split at h
  · next control =>
    split at h
    · next kind => exact Option.some.inj h ▸ .empty control kind
    · next kind => exact Option.some.inj h ▸ .start control kind
  · next least control =>
    split at h
    · next room => exact Option.some.inj h ▸ .enter control room
    · next room =>
      rw [giveUp_eq] at h
      exact Option.some.inj h ▸ .giveUp control room
  · next point control =>
    obtain ⟨lastStop, -, h⟩ := Option.bind_eq_some_iff.mp h
    exact move_of_perform control (point.act_lawful next lastStop) h
  · next found control =>
    split at h
    · next stack_eq => exact Option.some.inj h ▸ .finish control stack_eq
    · next frame stack stack_eq => exact Option.some.inj h ▸ .resume control stack_eq
  · next tree control =>
    split at h
    · next kind => exact Option.some.inj h ▸ .accept control kind
    · next kind => exact Option.some.inj h ▸ .trailing control kind
  · nomatch h

/-! ## What is kept -/

/-- Is this in a call for an expression, or at its ends? -/
def Control.reads : Control → Bool
  | .enter _ | .inside _ | .leave _ => true
  | .start | .trailing _ | .done _ => false

/-- Is this a part of the work to which a machine may come after it has given up? -/
def Control.unwinds : Control → Bool
  | .start | .enter _ => false
  | .inside point => point.unwinds
  | .leave _ | .trailing _ | .done _ => true

/-- A bound on the steps from here to the end of the call without passing a token. -/
def Control.rank : Control → Nat
  | .start => 6
  | .enter _ => 5
  | .inside point => point.rank
  | .leave _ => 2
  | .trailing _ => 1
  | .done _ => 0

/-- The calls that are entered and not yet left: those that wait on the stack for a further
expression, and the one in which the machine is. -/
def State.calls (s : State) : Nat :=
  match s.control with
  | .inside _ => s.stack.length + 1
  | _ => s.stack.length

/-- The machine has given up. It stands at the end, and only returns from the calls that are
open. -/
structure Parked (m : Machine) (s : State) : Prop where
  gaveUp : s.gaveUp = true
  pos_eq : s.pos = m.tokens.length
  unwinds : s.control.unwinds = true

/-- The machine stands at a token, counts its calls right and within the limit, and is parked once
it has given up. -/
structure Sound (m : Machine) (s : State) : Prop where
  pos_le : s.pos ≤ m.tokens.length
  depth_eq : s.depth = s.calls
  depth_le : s.depth ≤ m.limit
  parked : s.gaveUp = true → m.Parked s

theorem Move.pos_le (h : m.Move next s s') (hpos : s.pos ≤ m.tokens.length) : s.pos ≤ s'.pos := by
  cases h with
  | advance control lawful =>
    rw [State.advance_of_ne s lawful.1]
    exact Nat.le_succ _
  | giveUp => exact hpos
  | empty | report | trailing => simp
  | start | enter | go | call | leave | resume | finish | accept => exact Nat.le_refl _

/-- A token that is passed is not the one for the end. -/
theorem Move.pos_le_length (h : m.Move next s s') (hnext : m.row[s.pos]? = some next)
    (hpos : s.pos ≤ m.tokens.length) : s'.pos ≤ m.tokens.length := by
  cases h with
  | advance control lawful =>
    have hne : s.pos ≠ m.tokens.length := mt (kind_eq_finish_iff hnext).mpr lawful.1
    rw [State.advance_of_ne s lawful.1]
    exact Nat.lt_of_le_of_ne hpos hne
  | giveUp => exact Nat.le_refl _
  | empty | report | trailing => simpa using hpos
  | start | enter | go | call | leave | resume | finish | accept => exact hpos

/-- A call is counted from where it is entered to where it is left, and stays on the stack while it
waits for another one. -/
theorem Move.depth_eq_calls (h : m.Move next s s') (hdepth : s.depth = s.calls) :
    s'.depth = s'.calls := by
  cases h with
  | advance control lawful =>
    rw [State.advance_of_ne s lawful.1]
    simpa [State.calls, control] using hdepth
  | leave control lawful depth_eq =>
    simp only [State.calls, control] at hdepth
    exact Nat.succ.inj (depth_eq.symm.trans hdepth)
  | resume control stack_eq => simpa [State.calls, control, stack_eq] using hdepth
  | empty control | start control | enter control | giveUp control | go control | report control
  | call control | finish control | accept control | trailing control =>
    simpa [State.calls, control] using hdepth

/-- No call is entered at the limit. -/
theorem Move.depth_le (h : m.Move next s s') (hdepth : s.depth ≤ m.limit) : s'.depth ≤ m.limit := by
  cases h with
  | enter control room => exact room
  | leave control lawful depth_eq =>
    rw [depth_eq] at hdepth
    exact Nat.le_of_succ_le hdepth
  | advance control lawful => rwa [State.advance_of_ne s lawful.1]
  | empty | giveUp | report | trailing => simpa using hdepth
  | start | go | call | resume | finish | accept => exact hdepth

/-- A parked machine stays where it is and reports nothing more. -/
theorem Parked.move (h : m.Parked s) (hnext : m.row[s.pos]? = some next)
    (hmove : m.Move next s s') : m.Parked s' ∧ s'.pos = s.pos ∧ s'.log = s.log := by
  obtain ⟨hgave, hpos, hunwinds⟩ := h
  cases hmove with
  | empty control | start control | enter control | giveUp control =>
    rw [control] at hunwinds
    nomatch hunwinds
  | call control lawful =>
    rw [control, Control.unwinds, lawful.1] at hunwinds
    nomatch hunwinds
  | advance control lawful => exact absurd ((kind_eq_finish_iff hnext).mpr hpos) lawful.1
  | report control lawful =>
    exact ⟨⟨by simpa using hgave, by simpa using hpos, lawful.1⟩, by simp,
      State.log_report hgave _⟩
  | trailing control =>
    exact ⟨⟨by simpa using hgave, by simpa using hpos, rfl⟩, by simp, State.log_report hgave _⟩
  | go control lawful => exact ⟨⟨hgave, hpos, lawful.1⟩, rfl, rfl⟩
  | leave | resume | finish | accept => exact ⟨⟨hgave, hpos, rfl⟩, rfl, rfl⟩

/-- A machine gives up in no other way than by being parked. -/
theorem Move.gaveUp_eq_or (h : m.Move next s s') : s'.gaveUp = s.gaveUp ∨ m.Parked s' := by
  cases h with
  | giveUp => exact .inr ⟨rfl, rfl, rfl⟩
  | advance control lawful => exact .inl (by rw [State.advance_of_ne s lawful.1]; rfl)
  | empty | report | trailing => exact .inl (State.gaveUp_report ..)
  | start | enter | go | call | leave | resume | finish | accept => exact .inl rfl

theorem Sound.move (h : m.Sound s) (hnext : m.row[s.pos]? = some next) (hmove : m.Move next s s') :
    m.Sound s' := by
  refine ⟨hmove.pos_le_length hnext h.pos_le, hmove.depth_eq_calls h.depth_eq,
    hmove.depth_le h.depth_le, fun hgave => ?_⟩
  rcases hmove.gaveUp_eq_or with heq | hparked
  · exact ((h.parked (heq ▸ hgave)).move hnext hmove).1
  · exact hparked

/-! ## Steps that do not fail -/

theorem step_eq (hnext : m.row[s.pos]? = some next) : m.step s = m.stepAt s next := by
  rw [step, hnext, Option.bind_some]

/-- In a sound state the machine is done, or can take a step: there is a token to look at, in front
of it and behind it, and a call to leave. -/
theorem Sound.exists_step (h : m.Sound s) (hdone : ∀ tree, s.control ≠ .done tree) :
    ∃ s', m.step s = some s' := by
  obtain ⟨next, hnext⟩ := exists_row h.pos_le
  rw [step_eq hnext]
  unfold stepAt
  split
  · split <;> exact ⟨_, rfl⟩
  · split
    · exact ⟨_, rfl⟩
    · exact ⟨_, giveUp_eq ..⟩
  · next point control =>
    obtain ⟨lastStop, hlast⟩ := exists_lastStop? h.pos_le
    rw [hlast, Option.bind_some]
    cases point.act next lastStop with
    | go | report | advance | call => exact ⟨_, rfl⟩
    | leave found =>
      have hdepth : s.depth = s.stack.length + 1 := by rw [h.depth_eq, State.calls, control]
      simp only [State.perform, hdepth]
      exact ⟨_, rfl⟩
  · split <;> exact ⟨_, rfl⟩
  · split <;> exact ⟨_, rfl⟩
  · next tree control => exact absurd control (hdone tree)

/-- A bound on the steps ahead. Each token may take nine of them, and each call that waits five for
what is left to do when it goes on. -/
def toGo (m : Machine) (s : State) : Nat :=
  9 * (m.tokens.length - s.pos) + 5 * s.stack.length + s.control.rank

theorem Move.toGo_lt (h : m.Move next s s') (hnext : m.row[s.pos]? = some next)
    (hpos : s.pos ≤ m.tokens.length) : m.toGo s' < m.toGo s := by
  unfold toGo
  cases h with
  | advance control lawful =>
    have hne : s.pos ≠ m.tokens.length := mt (kind_eq_finish_iff hnext).mpr lawful.1
    have hrank := lawful.2
    rw [State.advance_of_ne s lawful.1, control]
    simp only [State.goTo, Control.rank]
    omega
  | giveUp control =>
    simp only [State.stack_report, control, Control.rank]
    omega
  | resume control stack_eq =>
    simp only [stack_eq, List.length_cons, control, Control.rank, Point.rank]
    omega
  | call control lawful =>
    have hrank := lawful.2
    simp only [List.length_cons, control, Control.rank]
    omega
  | leave control lawful =>
    have hrank : 2 < _ := lawful
    simp only [control, Control.rank]
    omega
  | go control lawful =>
    have hrank := lawful.2
    simp only [State.goTo, control, Control.rank]
    omega
  | report control lawful =>
    have hrank := lawful.2
    simp only [State.goTo, State.pos_report, State.stack_report, control, Control.rank]
    omega
  | empty control | trailing control => simp [control, Control.rank]
  | start control | enter control | finish control | accept control =>
    simp [control, Control.rank, Point.rank]

/-! ## Runs -/

/-- The machine takes any number of steps. -/
abbrev Runs (m : Machine) : State → State → Prop :=
  Relation.ReflTransGen fun s s' => m.step s = some s'

/-- The machine comes to the state. -/
def Reaches (m : Machine) (s : State) : Prop := m.Runs {} s

theorem Sound.start (m : Machine) : m.Sound {} :=
  ⟨Nat.zero_le _, rfl, Nat.zero_le _, nofun⟩

theorem Sound.step (h : m.Sound s) (hstep : m.step s = some s') : m.Sound s' := by
  obtain ⟨next, hnext, hmove⟩ := exists_move hstep
  exact h.move hnext hmove

theorem Sound.runs (h : m.Sound s) (hruns : m.Runs s s') : m.Sound s' ∧ s.pos ≤ s'.pos := by
  induction hruns with
  | refl => exact ⟨h, Nat.le_refl _⟩
  | tail _ hstep ih =>
    obtain ⟨next, hnext, hmove⟩ := exists_move hstep
    exact ⟨ih.1.move hnext hmove, Nat.le_trans ih.2 (hmove.pos_le ih.1.pos_le)⟩

theorem Parked.runs (h : m.Parked s) (hruns : m.Runs s s') :
    m.Parked s' ∧ s'.pos = s.pos ∧ s'.log = s.log := by
  induction hruns with
  | refl => exact ⟨h, rfl, rfl⟩
  | tail _ hstep ih =>
    obtain ⟨next, hnext, hmove⟩ := exists_move hstep
    obtain ⟨hparked, hpos, hlog⟩ := ih.1.move hnext hmove
    exact ⟨hparked, hpos.trans ih.2.1, hlog.trans ih.2.2⟩

/-- Induction along the steps ahead of a sound state, which are finitely many. -/
theorem Sound.induction {motive : (s : State) → m.Sound s → Prop}
    (ahead : ∀ (s : State) (h : m.Sound s),
      (∀ s' (hstep : m.step s = some s'), motive s' (h.step hstep)) → motive s h)
    {s : State} (h : m.Sound s) : motive s h := by
  induction hn : m.toGo s using Nat.strongRecOn generalizing s with
  | ind n ih =>
    refine ahead s h fun s' hstep => ?_
    obtain ⟨next, hnext, hmove⟩ := exists_move hstep
    exact ih _ (hn ▸ hmove.toGo_lt hnext h.pos_le) (h.step hstep) rfl

/-- Every run comes to its end. -/
theorem Sound.exists_done (h : m.Sound s) : ∃ s' tree, m.Runs s s' ∧ s'.control = .done tree := by
  induction h using Sound.induction with
  | ahead s h ih =>
    by_cases hdone : ∃ tree, s.control = .done tree
    · obtain ⟨tree, hdone⟩ := hdone
      exact ⟨s, tree, .refl, hdone⟩
    · obtain ⟨s', hstep⟩ := h.exists_step (not_exists.mp hdone)
      obtain ⟨s'', tree, hruns, hcontrol⟩ := ih s' hstep
      exact ⟨s'', tree, .head hstep hruns, hcontrol⟩

end Calculator.Expr.Machine

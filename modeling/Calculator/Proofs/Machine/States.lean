import Calculator.Proofs.Machine.Reading

/-!
# What holds throughout a run

A machine never looks for a token that is not there, never leaves a call without being in one and
never goes beyond the limit, whatever tokens it reads. Every call is left as deep as it was made,
also those that are open when the machine gives up: from there on it stands at the end and only
returns from them.

* `Machine.Invariant`: what holds of a state that the machine comes to.
* `Machine.run_invariant`: it holds throughout, every run comes to its end, and on a text the
  machine does what the parser does.
-/

namespace Calculator.Expr.Machine

variable {m : Machine} {s : State}

/-- What holds of a state to which the machine comes. -/
structure Invariant (m : Machine) (s : State) : Prop where
  /-- There is a next token. -/
  pos_lt : s.pos < m.row.length
  /-- The machine never goes back. -/
  pos_le : ∀ s', m.Runs s s' → s.pos ≤ s'.pos
  depth_le : s.depth ≤ m.limit
  /-- There is a call to leave. -/
  depth_pos : ∀ point, s.control = .inside point → 0 < s.depth
  /-- Until the machine is done, no step fails. -/
  done_or_step : (∃ tree, s.control = .done tree) ∨ ∃ s', m.step s = some s'
  /-- A call that is made here is left, and as many calls are open then as were before. If it is
  made with a level left and in front of a token with which an expression starts, it passes this
  token. -/
  call : ∀ least, s.control = .enter least →
    (∃ s', m.Returns s.stack s s') ∧ ∀ s', m.Returns s.stack s s' → s'.depth = s.depth ∧
      ∀ next, m.row[s.pos]? = some next → s.depth < m.limit → next.kind.startsExpr = true →
        s.pos < s'.pos
  /-- A machine that has given up stays at the end, and makes no further report and no call. -/
  given_up : s.gaveUp = true → m.row[s.pos]? = some m.finish ∧ ∀ s', m.Runs s s' →
    s'.gaveUp = true ∧ s'.pos = s.pos ∧ s'.log = s.log ∧ ∀ least, s'.control ≠ .enter least

theorem Parked.not_enter (h : m.Parked s) (least : Nat) : s.control ≠ .enter least := by
  intro control
  have hunwinds := h.unwinds
  rw [control] at hunwinds
  nomatch hunwinds

theorem Sound.invariant (h : m.Sound s) : m.Invariant s where
  pos_lt := by
    rw [length_row]
    exact Nat.lt_succ_of_le h.pos_le
  pos_le s' hruns := (h.runs hruns).2
  depth_le := h.depth_le
  depth_pos point control := by
    rw [h.depth_eq, State.calls, control]
    exact Nat.succ_pos _
  done_or_step := by
    by_cases hdone : ∃ tree, s.control = .done tree
    · exact .inl hdone
    · exact .inr (h.exists_step (not_exists.mp hdone))
  call least control :=
    ⟨h.exists_returns (State.within_of_enter control), fun s' hreturns =>
      ⟨h.depth_eq_of_returns control hreturns, fun next hnext hroom hstarts =>
        h.pos_lt_of_returns hnext control hroom hstarts hreturns⟩⟩
  given_up hgave := by
    have hparked := h.parked hgave
    refine ⟨by rw [hparked.pos_eq, row_length], fun s' hruns => ?_⟩
    obtain ⟨hparked', hpos, hlog⟩ := hparked.runs hruns
    exact ⟨hparked'.gaveUp, hpos, hlog, hparked'.not_enter⟩

/-- In no state of a run is a token looked for that is not there, or a call left that was not
made. Every run comes to its end, and on the tokens of a text it does what the parser does. -/
theorem run_invariant (m : Machine) :
    (∀ s, m.Reaches s → m.Invariant s) ∧ (∃ s tree, m.Reaches s ∧ s.control = .done tree) ∧
      ∀ stop, m.finish = .finish stop → m.Parses :=
  ⟨fun _ hreaches => ((Sound.start m).runs hreaches).1.invariant, (Sound.start m).exists_done,
    fun _ hfinish => parses_of_finish hfinish⟩

/-- On `(1` with one level the machine gives up in the group, with one call open. -/
theorem run_invariant_given_up :
    let opened : Token := ⟨.openParen, "(", ⟨0, 1⟩⟩
    let one : Token := ⟨.number, "1", ⟨1, 2⟩⟩
    let m : Machine := ⟨[opened, one], .finish 2, 1, rfl, by decide⟩
    let s : State :=
      { pos := 2, depth := 1, gaveUp := true, log := [⟨.tooNested 1, ⟨1, 2⟩⟩]
        stack := [.content 0 opened], control := .leave (invalid (.point 2)) }
    m.Reaches s ∧ m.Invariant s := by
  intro opened one m s
  have hreaches : m.Reaches s :=
    .head rfl (.head rfl (.head rfl (.head rfl (.single rfl))))
  exact ⟨hreaches, (run_invariant m).1 s hreaches⟩

end Calculator.Expr.Machine

import Calculator.Limits
import Calculator.Proofs.FiniteValues

/-!
# Every operand is finite

An evaluation walks over a tree and hands what it finds to the arithmetic. `Expr.walk` leaves that
arithmetic open: with the handlers `Handlers.plain` it is the evaluation, and with
`Handlers.logged` it notes each operand that is handed over and each value that comes back. So what
is said of the log is said of the numbers on the way, also on that to an error.

* `Expr.walk_plain`: the walk is the evaluation.
* `Logs`: a logged step has the result of a plain one and notes finite numbers only. Each handler
  does so, if its operands are finite, and steps in a row do.
* `Limits.operands_finite`: no operand and no value of an evaluation is infinite or NaN.
-/

namespace Calculator

/-- The arithmetic of a walk over a tree. -/
structure Handlers (m : Type → Type) where
  /-- The value of a literal at a span. -/
  literal : String → Span → m Number
  /-- A number with a sign in front. -/
  signed : Sign → Number → m Number
  /-- An operation on two numbers, at a span. -/
  apply : Operation → Number → Number → Span → m Number
  /-- The end of a walk that cannot go on. -/
  fail : EvalError → m Number

/-- The evaluation of a tree at a depth, with so many levels left, of `limit` in all, by any
arithmetic. -/
def Expr.walk {m : Type → Type} [Monad m] (handlers : Handlers m) (limit : Nat) :
    (levels depth : Nat) → Expr → m Number
  | 0, depth, _ => handlers.fail (.tooDeep depth limit)
  | _ + 1, _, number text span => handlers.literal text span
  | levels + 1, depth, signed sign operand _ => do
    let value ← walk handlers limit levels (depth + 1) operand
    handlers.signed sign value
  | levels + 1, depth, e@(binary ..) => do
    let spine := e.leftSpine
    let first ← walk handlers limit levels (depth + 1) spine.1
    spine.2.foldlM (fun value link => do
      let right ← walk handlers limit levels (depth + 1) link.right
      handlers.apply link.op.operation value right link.span) first
  | _ + 1, _, e@(invalid span) => handlers.fail (.disallowed e.kindName span)

/-- The arithmetic of numbers. -/
def Handlers.plain : Handlers (Except EvalError) where
  literal := Literal.value
  signed sign operand := .ok (sign.apply operand)
  apply := Operation.apply
  fail := .error

/-- With the arithmetic of numbers, a walk is an evaluation. -/
theorem Expr.walk_plain (limit levels depth : Nat) (e : Expr) :
    e.walk .plain limit levels depth = e.evalAt limit levels depth := by
  induction levels generalizing depth e with
  | zero => cases e <;> rfl
  | succ levels ih =>
    cases e with
    | number | invalid => rfl
    | signed sign operand span =>
      rw [walk, evalAt, ih]
      cases operand.evalAt limit levels (depth + 1) <;> rfl
    | binary op opSpan left right span =>
      simp only [walk, evalAt, ih]
      rfl

/-! ## The log of a walk -/

/-- What a walk notes. -/
inductive Event where
  /-- A sign is handed its operand. -/
  | signed (sign : Sign) (operand : Number)
  /-- An operation is handed its operands. -/
  | applied (operation : Operation) (left right : Number)
  /-- A literal, a sign or an operation has a value. -/
  | value (n : Number)

/-- The numbers in an event. -/
def Event.numbers : Event → List Number
  | signed _ operand => [operand]
  | applied _ left right => [left, right]
  | value n => [n]

/-- Evaluations that keep a log, the first event first. An error keeps the log up to it. -/
abbrev Logged := ExceptT EvalError (StateM (List Event))

/-- Adds an event to the log. -/
def note (event : Event) : Logged Unit := modify (· ++ [event])

/-- Notes a value, if there is one. -/
def noteValue : Except EvalError Number → Logged Number
  | .ok n => do
    note (.value n)
    return n
  | .error error => throw error

/-- The arithmetic of numbers, with a note of each operand in front and of each value behind. -/
def Handlers.logged : Handlers Logged where
  literal text span := noteValue (Literal.value text span)
  signed sign operand := do
    note (.signed sign operand)
    noteValue (.ok (sign.apply operand))
  apply operation left right span := do
    note (.applied operation left right)
    noteValue (operation.apply left right span)
  fail error := throw error

/-- The logged evaluation has this result and only notes finite numbers; a value has `P`. -/
structure Logs {α : Type} (P : α → Prop) (result : Except EvalError α) (logged : Logged α) :
    Prop where
  value : ∀ a, result = .ok a → P a
  run : ∀ log, ∃ more, logged.run.run log = (result, log ++ more) ∧
    ∀ event ∈ more, ∀ n ∈ event.numbers, n.IsFinite

namespace Logs

variable {α β : Type} {P : α → Prop} {Q : β → Prop}

theorem throw (error : EvalError) : Logs P (.error error) (throw error) :=
  ⟨nofun, fun log => ⟨[], by rw [List.append_nil]; rfl, nofun⟩⟩

theorem note {event : Event} (h : ∀ n ∈ event.numbers, n.IsFinite) :
    Logs (fun _ => True) (.ok ()) (note event) :=
  ⟨fun _ _ => trivial, fun _ => ⟨[event], rfl, List.forall_mem_singleton.mpr h⟩⟩

/-- Steps in a row note finite numbers, if the second one does for the values of the first one. -/
theorem bind {result : Except EvalError α} {logged : Logged α} {next : α → Except EvalError β}
    {next' : α → Logged β} (h : Logs P result logged)
    (hnext : ∀ a, P a → Logs Q (next a) (next' a)) :
    Logs Q (result >>= next) (logged >>= next') := by
  cases result with
  | error error =>
    refine ⟨nofun, fun log => ?_⟩
    obtain ⟨more, hrun, hmore⟩ := h.run log
    refine ⟨more, ?_, hmore⟩
    show ExceptT.bindCont next' (logged.run.run log).1 (logged.run.run log).2 = _
    rw [hrun]
    rfl
  | ok a =>
    have ha := hnext a (h.value a rfl)
    refine ⟨ha.value, fun log => ?_⟩
    obtain ⟨more, hrun, hmore⟩ := h.run log
    obtain ⟨more', hrun', hmore'⟩ := ha.run (log ++ more)
    refine ⟨more ++ more', ?_, List.forall_mem_append.mpr ⟨hmore, hmore'⟩⟩
    show ExceptT.bindCont next' (logged.run.run log).1 (logged.run.run log).2 = _
    rw [hrun, ← List.append_assoc]
    exact hrun'

theorem noteValue {result : Except EvalError Number} (h : ∀ n, result = .ok n → n.IsFinite) :
    Logs Number.IsFinite result (noteValue result) := by
  cases result with
  | error error => exact .throw error
  | ok n =>
    have hn := h n rfl
    refine ⟨h, fun log => ⟨[.value n], rfl, ?_⟩⟩
    simpa [Event.numbers] using hn

/-- A loop notes finite numbers if each of its steps does, from a finite number on. -/
theorem foldlM {γ : Type} {step : Number → γ → Except EvalError Number}
    {step' : Number → γ → Logged Number}
    (h : ∀ n c, n.IsFinite → Logs Number.IsFinite (step n c) (step' n c)) {n : Number}
    (hn : n.IsFinite) (cs : List γ) :
    Logs Number.IsFinite (cs.foldlM step n) (cs.foldlM step' n) := by
  induction cs generalizing n with
  | nil =>
    refine ⟨fun a ha => ?_, fun log => ⟨[], by rw [List.append_nil]; rfl, nofun⟩⟩
    obtain rfl := Except.ok.inj ha
    exact hn
  | cons c cs ih =>
    rw [List.foldlM_cons, List.foldlM_cons]
    exact (h n c hn).bind fun a ha => ih ha

theorem signed (sign : Sign) {operand : Number} (h : operand.IsFinite) :
    Logs Number.IsFinite (.ok (sign.apply operand)) (Handlers.logged.signed sign operand) := by
  have hnote : Logs (fun _ => True) (.ok ()) (Calculator.note (.signed sign operand)) :=
    .note (by simpa [Event.numbers] using h)
  have hvalue : Logs Number.IsFinite (.ok (sign.apply operand))
      (Calculator.noteValue (.ok (sign.apply operand))) := by
    refine .noteValue fun n hn => ?_
    obtain rfl := Except.ok.inj hn
    exact sign.isFinite_apply h
  exact hnote.bind fun _ _ => hvalue

theorem apply (operation : Operation) {left right : Number} (span : Span) (hleft : left.IsFinite)
    (hright : right.IsFinite) : Logs Number.IsFinite (operation.apply left right span)
      (Handlers.logged.apply operation left right span) := by
  have hnote : Logs (fun _ => True) (.ok ()) (Calculator.note (.applied operation left right)) :=
    .note (by simp [Event.numbers, hleft, hright])
  exact hnote.bind fun _ _ => .noteValue fun n => Operation.isFinite_of_apply

end Logs

/-- A logged walk has the result of the evaluation and notes finite numbers only. -/
theorem Expr.walk_logged (limit levels depth : Nat) (e : Expr) :
    Logs Number.IsFinite (e.walk .plain limit levels depth)
      (e.walk .logged limit levels depth) := by
  induction levels generalizing depth e with
  | zero => cases e <;> exact .throw _
  | succ levels ih =>
    cases e with
    | number text span => exact .noteValue fun n => Literal.isFinite_of_value
    | invalid => exact .throw _
    | signed sign operand span => exact (ih _ operand).bind fun n hn => .signed sign hn
    | binary op opSpan left right span =>
      -- Every value of the loop is the left operand of the next link.
      exact (ih _ _).bind fun first hfirst => .foldlM (fun value link hvalue =>
        (ih _ link.right).bind fun right hright => .apply _ _ hvalue hright) hfirst _

namespace Limits

/-- Every value is finite. An evaluation is a walk with the arithmetic of numbers; the same walk
with a log has the same result, and its log holds each operand that a sign or an operation is handed
and each value that it, or a literal, gives. All these numbers are integers or finite floats, on
the way to an error too, and so is the value of the tree. -/
theorem operands_finite (limits : Limits) (e : Expr) :
    e.walk .plain limits.depth limits.depth 0 = limits.evaluate e ∧
    (∃ log, (e.walk .logged limits.depth limits.depth 0).run.run [] = (limits.evaluate e, log) ∧
      ∀ event ∈ log, ∀ n ∈ event.numbers, n.IsFinite) ∧
    ∀ n, limits.evaluate e = .ok n → n.IsFinite := by
  have hplain : e.walk .plain limits.depth limits.depth 0 = limits.evaluate e :=
    e.walk_plain _ _ _
  have hlogs := e.walk_logged limits.depth limits.depth 0
  rw [hplain] at hlogs
  obtain ⟨log, hrun, hlog⟩ := hlogs.run []
  exact ⟨hplain, ⟨log, hrun, hlog⟩, hlogs.value⟩

/-- In `1 - -2 / 0`, the sign and the quotient are handed their operands; the difference is not. -/
example :
    let quotient : Expr := .binary .div (.point 0) (.signed .minus (.number "2" (.point 0))
      (.point 0)) (.number "0" (.point 0)) (.point 0)
    let e : Expr := .binary .sub (.point 0) (.number "1" (.point 0)) quotient (.point 0)
    ((e.walk .logged 4 4 0).run.run []).2 = [.value (.int 1), .value (.int 2),
      .signed .minus (.int 2), .value (.int (-2)), .value (.int 0),
      .applied .div (.int (-2)) (.int 0)] := by
  rfl

end Limits

end Calculator

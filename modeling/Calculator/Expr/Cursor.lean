import Calculator.Report

/-!
# Cursors

A cursor is where a parser stands in a list of tokens, with the reports made so far. It moves
forward only. A halted cursor stands at the end and takes no further report.

* `Cursor.rest_length_advance_lt`: a step over a token leaves fewer tokens.
* `Cursor.skipGroup`: the way past the parenthesis that closes a group.
-/

namespace Calculator

/-- A place in a list of tokens. -/
structure Cursor where
  /-- The tokens not yet read. -/
  rest : List Token
  /-- Where the text ends. -/
  stop : Nat
  /-- Where the last token read ends; zero at the start. -/
  lastStop : Nat := 0
  /-- The reports made so far, the last one first. -/
  log : List Report := []
  /-- Has the nesting limit been met? -/
  halted : Bool := false
deriving Repr

namespace Cursor

/-- The next token; behind the last one stands the end of the text. -/
def peek (c : Cursor) : Token := c.rest.headD (.finish c.stop)

/-- The cursor behind the next token. -/
def advance (c : Cursor) : Cursor :=
  match c.rest with
  | [] => c
  | token :: rest => { c with rest, lastStop := token.span.stop }

/-- Records a report, unless the cursor is halted. -/
def report (c : Cursor) (problem : Problem) (span : Span) : Cursor :=
  if c.halted then c else { c with log := ⟨problem, span⟩ :: c.log }

/-- Reports that the next token is nested too deep, and gives up the rest of the text. -/
def halt (c : Cursor) (limit : Nat) : Cursor :=
  { c.report (.tooNested limit) c.peek.span with
    rest := []
    lastStop := (c.rest.getLast?.map (·.span.stop)).getD c.lastStop
    halted := true }

/-- What follows the parenthesis that closes a group, when `depth` groups inside it are open as
well, and the end of the last token passed; `lastStop` if none is. A group that is never closed
reaches to the end. -/
def skipGroup (depth lastStop : Nat) : List Token → List Token × Nat
  | [] => ([], lastStop)
  | token :: rest =>
    match token.kind, depth with
    | .closeParen, 0 => (rest, token.span.stop)
    | .closeParen, depth + 1 => skipGroup depth token.span.stop rest
    | .openParen, _ => skipGroup (depth + 1) token.span.stop rest
    | _, _ => skipGroup depth token.span.stop rest

/-- The cursor behind the parenthesis that closes the group in which it stands. -/
def skipPastClose (c : Cursor) : Cursor :=
  let skipped := skipGroup 0 c.lastStop c.rest
  { c with rest := skipped.1, lastStop := skipped.2 }

theorem peek_of_rest {c : Cursor} {token : Token} {tokens : List Token}
    (h : c.rest = token :: tokens) : c.peek = token := by
  rw [peek, h, List.headD_cons]

theorem peek_of_head? {c : Cursor} {token : Token} (h : token ∈ c.rest.head?) : c.peek = token := by
  rw [peek, List.headD_eq_head?_getD, Option.mem_def.mp h, Option.getD_some]

/-- The next token is the first one ahead, with the end of the text behind the last token. -/
theorem exists_ahead (c : Cursor) : ∃ back, c.rest ++ [.finish c.stop] = c.peek :: back := by
  unfold peek
  cases c.rest with
  | nil => exact ⟨[], rfl⟩
  | cons token rest => exact ⟨rest ++ [.finish c.stop], rfl⟩

theorem rest_advance_of_rest {c : Cursor} {token : Token} {tokens : List Token}
    (h : c.rest = token :: tokens) : c.advance.rest = tokens := by
  rw [advance, h]

theorem rest_advance (c : Cursor) : c.advance.rest = c.rest.tail := by
  fun_cases advance c with
  | case1 hrest => rw [hrest]; rfl
  | case2 token rest hrest => rw [hrest]; rfl

/-- A token other than the end of the text is the next one to read. -/
theorem rest_eq_cons {c : Cursor} (h : c.peek.kind ≠ .finish) :
    c.rest = c.peek :: c.advance.rest := by
  fun_cases advance c <;> simp_all [peek, Token.finish]

/-- An operator is a token of the text. -/
theorem rest_eq_cons_of_binaryOp? {c : Cursor} {op : BinaryOp}
    (h : c.peek.kind.binaryOp? = some op) : c.rest = c.peek :: c.advance.rest :=
  rest_eq_cons (Token.Kind.ne_finish_of_binaryOp? h)

/-- A parenthesis that opens is a token of the text. -/
theorem rest_eq_cons_of_openParen {c : Cursor} (h : c.peek.kind = .openParen) :
    c.rest = c.peek :: c.advance.rest :=
  rest_eq_cons (by rw [h]; nofun)

/-- Behind the last token there is none left to read. -/
theorem rest_eq_nil {c : Cursor} (hfinish : ∀ token ∈ c.rest, token.kind ≠ .finish)
    (h : c.peek.kind = .finish) : c.rest = [] := by
  cases hrest : c.rest with
  | nil => rfl
  | cons token rest =>
    rw [peek_of_rest hrest] at h
    exact absurd h (hfinish token (by rw [hrest]; exact List.mem_cons_self))

@[simp] theorem stop_advance (c : Cursor) : c.advance.stop = c.stop := by
  unfold advance
  split <;> rfl

@[simp] theorem log_advance (c : Cursor) : c.advance.log = c.log := by
  unfold advance
  split <;> rfl

@[simp] theorem halted_advance (c : Cursor) : c.advance.halted = c.halted := by
  unfold advance
  split <;> rfl

/-- A cursor that is not halted takes a report. -/
theorem report_of_not_halted {c : Cursor} (h : c.halted = false) (problem : Problem)
    (span : Span) : c.report problem span = { c with log := ⟨problem, span⟩ :: c.log } :=
  if_neg (by rw [h]; exact Bool.false_ne_true)

@[simp] theorem rest_report (c : Cursor) (problem : Problem) (span : Span) :
    (c.report problem span).rest = c.rest := by
  unfold report
  split <;> rfl

@[simp] theorem lastStop_report (c : Cursor) (problem : Problem) (span : Span) :
    (c.report problem span).lastStop = c.lastStop := by
  unfold report
  split <;> rfl

@[simp] theorem peek_report (c : Cursor) (problem : Problem) (span : Span) :
    (c.report problem span).peek = c.peek := by
  unfold report
  split <;> rfl

@[simp] theorem halted_report (c : Cursor) (problem : Problem) (span : Span) :
    (c.report problem span).halted = c.halted := by
  unfold report
  split <;> rfl

theorem rest_advance_report (c : Cursor) (problem : Problem) (span : Span) :
    (c.report problem span).advance.rest = c.advance.rest := by
  rw [rest_advance, rest_report, rest_advance]

@[simp] theorem rest_halt (c : Cursor) (limit : Nat) : (c.halt limit).rest = [] := rfl

theorem rest_length_advance_le (c : Cursor) : c.advance.rest.length ≤ c.rest.length := by
  fun_cases advance c <;> simp_all

theorem rest_length_advance_lt {c : Cursor} (h : c.peek.kind ≠ .finish) :
    c.advance.rest.length < c.rest.length := by
  fun_cases advance c <;> simp_all [peek, Token.finish]

theorem length_skipGroup_le (depth lastStop : Nat) (tokens : List Token) :
    (skipGroup depth lastStop tokens).1.length ≤ tokens.length := by
  fun_induction skipGroup depth lastStop tokens with
  | case1 => exact Nat.le_refl _
  | case2 | case3 | case4 | case5 =>
    simp only [List.length_cons]
    omega

theorem rest_length_skipPastClose_le (c : Cursor) :
    c.skipPastClose.rest.length ≤ c.rest.length :=
  length_skipGroup_le ..

end Cursor

end Calculator

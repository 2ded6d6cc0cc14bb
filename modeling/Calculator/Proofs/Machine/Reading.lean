import Calculator.Proofs.GroupRecovery
import Calculator.Proofs.Machine.Returns
import Calculator.Proofs.SourceOrder

/-!
# A machine reads as the parser does

A machine that stands where a cursor stands, in front of a call with some levels left, returns from
the call where the parser ends a reading with as many levels, with the same expression and the same
reports. So what holds of the steps of a machine is true of the parser.

* `Machine.State.standing`: the state of a machine at a cursor. `Machine.cursor`: the cursor at
  which a machine stands.
* `Machine.Passes`: the way from one point inside a call to another one. There is a lemma for each
  act, and one for each part of the parser.
* `Machine.Carries`: calls are readings. `Machine.carries_parseAt` says it of every number of
  levels.
* `Machine.parses_of_finish`: on the tokens of a text, a machine does what the parser does.
-/

namespace Calculator

/-- The machine that reads the tokens of the scan. -/
def Scan.machine (scan : Scan) (limit : Nat)
    (kind_ne_finish : ∀ token ∈ scan.tokens, token.kind ≠ .finish) : Expr.Machine :=
  ⟨scan.tokens, .finish scan.stop, limit, rfl, kind_ne_finish⟩

namespace Cursor

variable {scan : Scan} {limit : Nat} {h : ∀ token ∈ scan.tokens, token.kind ≠ .finish} {c : Cursor}

theorem index_eq {front : List Token} (hfront : scan.tokens = front ++ c.rest) :
    c.index scan = front.length := by
  rw [index, hfront, List.length_append, Nat.add_sub_cancel]

/-- The next token of the cursor is the one at its index. -/
theorem At.row_index (hc : c.At scan) :
    (scan.machine limit h).row[c.index scan]? = some c.peek := by
  obtain ⟨front, hfront, -⟩ := hc.exists_front
  obtain ⟨back, hback⟩ := c.exists_ahead
  have hrow : (scan.machine limit h).row = front ++ c.peek :: back := by
    rw [← hback, hc.stop_eq, ← List.append_assoc, ← hfront]
    rfl
  rw [index_eq hfront, Expr.Machine.row_eq_some hrow]

theorem At.lastStop?_index (hc : c.At scan) :
    (scan.machine limit h).lastStop? (c.index scan) = some c.lastStop := by
  obtain ⟨front, hfront, hlast⟩ := hc.exists_front
  rw [index_eq hfront, hlast]
  rcases List.eq_nil_or_concat' front with rfl | ⟨before, token, rfl⟩
  · rfl
  · have hrow : (scan.machine limit h).row =
        before ++ token :: (c.rest ++ [.finish scan.stop]) := by
      show scan.tokens ++ [.finish scan.stop] = _
      rw [hfront, List.append_assoc, List.append_assoc]
      rfl
    rw [Token.lastStop_concat, List.length_append, List.length_singleton, Expr.Machine.lastStop?,
      Expr.Machine.row_eq_some hrow, Option.map_some]

theorem At.index_advance (hc : c.At scan) (hkind : c.peek.kind ≠ .finish) :
    c.advance.index scan = c.index scan + 1 := by
  obtain ⟨front, hfront, -⟩ := hc.exists_front
  have hadvance : scan.tokens = (front ++ [c.peek]) ++ c.advance.rest := by
    rw [hfront, rest_eq_cons hkind, List.append_assoc]
    rfl
  rw [index_eq hfront, index_eq hadvance, List.length_append, List.length_singleton]

theorem peek_of_nil (hrest : c.rest = []) : c.peek = .finish c.stop := by
  rw [peek, hrest, List.headD_nil]

/-- What is read as the end of the text is its end. -/
theorem At.peek_eq_finish (h : ∀ token ∈ scan.tokens, token.kind ≠ .finish) (hc : c.At scan)
    (hkind : c.peek.kind = .finish) : c.peek = .finish scan.stop := by
  obtain ⟨front, hfront, -⟩ := hc.exists_front
  have hrest : c.rest = [] := rest_eq_nil
    (fun token htoken => h token (hfront ▸ List.mem_append_right _ htoken)) hkind
  rw [peek_of_nil hrest, hc.stop_eq]

theorem At.steps {c' : Cursor} (hc : c.At scan) (hsteps : Cursor.Steps limit c c') :
    c'.At scan := by
  induction hsteps with
  | refl => exact hc
  | tail _ hstep ih => exact hstep.at_cursor ih

end Cursor

namespace Expr.Machine

variable {scan : Scan} {limit : Nat} {h : ∀ token ∈ scan.tokens, token.kind ≠ .finish}
  {c c' : Cursor} {depth levels : Nat} {stack : List Frame} {control : Control}
  {point point' : Point}

/-- The state of a machine that stands at the cursor. -/
def State.standing (scan : Scan) (c : Cursor) (depth : Nat) (stack : List Frame)
    (control : Control) : State :=
  { pos := c.index scan, depth, gaveUp := c.halted, log := c.log, stack, control }

theorem State.report_standing (problem : Problem) (span : Span) :
    (State.standing scan c depth stack control).report ⟨problem, span⟩ =
      .standing scan (c.report problem span) depth stack control := by
  unfold State.report Cursor.report State.standing
  dsimp only
  split <;> rfl

theorem step_standing (hc : c.At scan) :
    (scan.machine limit h).step (.standing scan c depth stack control) =
      (scan.machine limit h).stepAt (.standing scan c depth stack control) c.peek :=
  step_eq hc.row_index

theorem step_inside (hc : c.At scan) :
    (scan.machine limit h).step (.standing scan c depth stack (.inside point)) =
      (State.standing scan c depth stack (.inside point)).perform c.peek
        (point.act c.peek c.lastStop) := by
  rw [step_standing hc, stepAt]
  simp only [State.standing, hc.lastStop?_index, Option.bind_some]

/-- Inside a call over the stack, the machine comes from a point at the cursor `c` to one at the
cursor `c'`, with as many calls open. -/
abbrev Passes (scan : Scan) (limit : Nat) (h : ∀ token ∈ scan.tokens, token.kind ≠ .finish)
    (depth : Nat) (stack : List Frame) (c : Cursor) (point : Point) (c' : Cursor)
    (point' : Point) : Prop :=
  (scan.machine limit h).RunsIn stack (.standing scan c depth stack (.inside point))
    (.standing scan c' depth stack (.inside point'))

section Acts

variable (hc : c.At scan)
include hc

theorem runsIn_of_perform {s : State}
    (hstep : (State.standing scan c depth stack (.inside point)).perform c.peek
      (point.act c.peek c.lastStop) = some s) :
    (scan.machine limit h).RunsIn stack (.standing scan c depth stack (.inside point)) s :=
  .single ⟨State.not_leaves_of_inside rfl, (step_inside hc).trans hstep⟩

theorem passes_go (hact : point.act c.peek c.lastStop = .go point') :
    Passes scan limit h depth stack c point c point' :=
  runsIn_of_perform hc (by rw [hact]; rfl)

theorem passes_report {problem : Problem} {span : Span}
    (hact : point.act c.peek c.lastStop = .report ⟨problem, span⟩ point') :
    Passes scan limit h depth stack c point (c.report problem span) point' :=
  runsIn_of_perform hc (by rw [hact, State.perform, State.report_standing]; rfl)

theorem passes_advance (hact : point.act c.peek c.lastStop = .advance point') :
    Passes scan limit h depth stack c point c.advance point' := by
  have hlawful := point.act_lawful c.peek c.lastStop
  rw [hact] at hlawful
  refine runsIn_of_perform hc ?_
  rw [hact, State.perform, State.advance_of_ne _ hlawful.1]
  simp only [State.standing, State.goTo, hc.index_advance hlawful.1, Cursor.halted_advance,
    Cursor.log_advance]

theorem runsIn_leave {found : Expr} (hact : point.act c.peek c.lastStop = .leave found) :
    (scan.machine limit h).RunsIn stack (.standing scan c (depth + 1) stack (.inside point))
      (.standing scan c depth stack (.leave found)) :=
  runsIn_of_perform hc (by rw [hact]; rfl)

end Acts

/-! ## Groups -/

/-- The cursor behind the parenthesis that closes the group in which it stands, when `n` groups
inside it are open as well. -/
def skipFrom (n : Nat) (c : Cursor) : Cursor :=
  let skipped := Cursor.skipGroup n c.lastStop c.rest
  { c with rest := skipped.1, lastStop := skipped.2 }

theorem skipFrom_of_nil (hrest : c.rest = []) (n : Nat) : skipFrom n c = c := by
  rw [skipFrom, hrest, Cursor.skipGroup, ← hrest]

/-- A token inside a group that is not closed is passed as the cursor passes it. -/
theorem act_skip (hkind : c.peek.kind ≠ .finish) (least : Nat) (opened : Token) (content : Expr)
    (n : Nat) :
    ((Point.skip least opened content n).act c.peek c.lastStop =
        .advance (.group least opened content) ∧ skipFrom n c = c.advance) ∨
    ∃ n', (Point.skip least opened content n).act c.peek c.lastStop =
        .advance (.skip least opened content n') ∧ skipFrom n c = skipFrom n' c.advance := by
  have hrest := Cursor.rest_eq_cons hkind
  have hadvance : c.advance = { c with rest := c.advance.rest, lastStop := c.peek.span.stop } := by
    rw [Cursor.advance, hrest]
  have hskip (n : Nat) : skipFrom n c.advance =
      { c with
        rest := (Cursor.skipGroup n c.peek.span.stop c.advance.rest).1
        lastStop := (Cursor.skipGroup n c.peek.span.stop c.advance.rest).2 } := by
    rw [skipFrom, hadvance]
  simp only [hskip]
  simp only [skipFrom, Point.act, hrest, Cursor.skipGroup]
  cases hk : c.peek.kind with
  | finish => exact absurd hk hkind
  | closeParen =>
    cases n with
    | zero => exact .inl ⟨rfl, hadvance.symm⟩
    | succ n => exact .inr ⟨n, rfl, rfl⟩
  | openParen => exact .inr ⟨n + 1, rfl, rfl⟩
  | number | plus | minus | star | starStar | slash | percent | caret => exact .inr ⟨n, rfl, rfl⟩

/-- The machine passes over a group as the cursor does. -/
theorem passes_skip (hc : c.At scan) (least : Nat) (opened : Token) (content : Expr) (n : Nat) :
    Passes scan limit h depth stack c (.skip least opened content n) (skipFrom n c)
      (.group least opened content) := by
  induction hlength : c.rest.length generalizing c n with
  | zero =>
    have hrest : c.rest = [] := List.length_eq_zero_iff.mp hlength
    have hkind : c.peek.kind = .finish := by
      rw [Cursor.peek_of_nil hrest]
      rfl
    rw [skipFrom_of_nil hrest]
    exact passes_go hc (by simp only [Point.act, hkind])
  | succ length ih =>
    obtain ⟨token, rest, hrest⟩ := List.exists_cons_of_length_eq_add_one hlength
    have hkind : c.peek.kind ≠ .finish := by
      obtain ⟨front, hfront, -⟩ := hc.exists_front
      refine h _ ?_
      rw [hfront, Cursor.peek_of_rest hrest, hrest]
      exact List.mem_append_right _ List.mem_cons_self
    have hlength' : c.advance.rest.length = length := by
      rw [Cursor.rest_advance, List.length_tail, hlength]
      rfl
    rcases act_skip hkind least opened content n with ⟨hact, hskip⟩ | ⟨n', hact, hskip⟩
    · rw [hskip]
      exact passes_advance hc hact
    · rw [hskip]
      exact (passes_advance hc hact).trans (ih hc.advance n' hlength')

theorem passes_closed (hc : c.At scan) (hclose : c.peek.kind = .closeParen) (least : Nat)
    (opened : Token) (content : Expr) :
    Passes scan limit h depth stack c (.resume (.content least opened) content) c.advance
      (.climb least (content.withSpan ⟨opened.span.start, c.advance.lastStop⟩)) := by
  have hact : (Point.resume (.content least opened) content).act c.peek c.lastStop =
      .advance (.group least opened content) := by
    simp only [Point.act, if_pos hclose]
  exact (passes_advance hc hact).trans (passes_go hc.advance rfl)

/-- The report on a group that is not closed stands on the next token: the one for the end is as
wide as its place. -/
theorem passes_unclosed (hc : c.At scan) (hopen : c.peek.kind ≠ .closeParen) (least : Nat)
    (opened : Token) (content : Expr) :
    let c' := (c.report (.unclosed opened.span c.peek.kind) c.peek.span).skipPastClose
    Passes scan limit h depth stack c (.resume (.content least opened) content) c'
      (.climb least (content.withSpan ⟨opened.span.start, c'.lastStop⟩)) := by
  intro c'
  have hplace : (if c.peek.kind = .finish then Span.point c.peek.span.start else c.peek.span) =
      c.peek.span := by
    split
    · next hfinish =>
      rw [hc.peek_eq_finish h hfinish]
      rfl
    · rfl
  have hact : (Point.resume (.content least opened) content).act c.peek c.lastStop =
      .report ⟨.unclosed opened.span c.peek.kind, c.peek.span⟩ (.skip least opened content 0) := by
    simp only [Point.act, if_neg hopen, hplace]
  have hreport := hc.report (.unclosed opened.span c.peek.kind) c.peek.span
  have hskip : Passes scan limit h depth stack _ (.skip least opened content 0) c'
      (.group least opened content) := passes_skip hreport least opened content 0
  exact ((passes_report hc hact).trans hskip).trans (passes_go hreport.skipPastClose rfl)

/-! ## Readings -/

/-- The further expression that a frame is for, read from a cursor on. -/
def Frame.read (inner : Nested) (frame : Frame) (c : Cursor) : Expr × Cursor :=
  match frame.missing? c.peek.kind with
  | none => inner.read frame.binding c
  | some report => (invalid (.point report.span.stop), c.report report.problem report.span)

theorem readSigned_eq {inner : Nested} {sign : Sign} (least : Nat) :
    inner.readSigned sign c =
      let found := (Frame.signed least sign c.peek).read inner c.advance
      (signed sign found.1 (c.peek.span.cover found.1.span), found.2) := by
  unfold Frame.read Frame.missing?
  cases hs : c.advance.peek.kind.startsExpr with
  | true => exact inner.readSigned_of_starts hs
  | false => exact inner.readSigned_of_not_starts hs

theorem readRight_eq {inner : Nested} {op : BinaryOp} (least : Nat) (left : Expr) :
    inner.readRight op c = (Frame.right least left op c.peek).read inner c.advance := by
  unfold Frame.read Frame.missing?
  cases hs : c.advance.peek.kind.startsExpr with
  | true => exact inner.readRight_of_starts hs
  | false => exact inner.readRight_of_not_starts hs

/-- From a call on, the machine returns with what the reading finds. -/
def Carries (scan : Scan) (limit : Nat) (h : ∀ token ∈ scan.tokens, token.kind ≠ .finish)
    (inner : Nested) (levels : Nat) : Prop :=
  ∀ (least : Nat) (c : Cursor) (depth : Nat) (stack : List Frame), c.At scan →
    depth + levels = limit →
      (scan.machine limit h).Returns stack (.standing scan c depth stack (.enter least))
        (.standing scan (inner.read least c).2 depth stack (.leave (inner.read least c).1))

section Readings

variable {inner : Nested} (hsteps : inner.Steps limit) (hinner : Carries scan limit h inner levels)
  (hlimit : depth + 1 + levels = limit) (hc : c.At scan)
include hsteps hinner hlimit hc

/-- A further expression is read, or reported as missing. -/
theorem passes_ask (frame : Frame) :
    Passes scan limit h (depth + 1) stack c (.ask frame) (frame.read inner c).2
      (.resume frame (frame.read inner c).1) := by
  unfold Frame.read
  cases hmissing : frame.missing? c.peek.kind with
  | some report => exact passes_report hc (by simp only [Point.act, hmissing])
  | none =>
    let called := State.standing scan c (depth + 1) (frame :: stack) (.enter frame.binding)
    have hcall : (scan.machine limit h).RunsIn stack
        (.standing scan c (depth + 1) stack (.inside (.ask frame))) called :=
      runsIn_of_perform hc (by simp only [Point.act, hmissing]; rfl)
    have hreturns := hinner frame.binding c (depth + 1) (frame :: stack) hc hlimit
    -- The call is left over the longer stack, and the frame on top of it is taken up again.
    refine hcall.trans (hreturns.runsIn_of_cons (State.within_of_enter (s := called) rfl) ?_)
    rw [step_standing (hc.steps (hsteps _ c))]
    rfl

omit hinner hlimit in
theorem at_frameRead (frame : Frame) : (frame.read inner c).2.At scan := by
  unfold Frame.read
  split
  · exact hc.steps (hsteps _ c)
  · exact hc.report _ _

/-- A token is passed, and a further expression is read behind it. -/
theorem passes_further {frame : Frame}
    (hact : point.act c.peek c.lastStop = .advance (.ask frame)) :
    Passes scan limit h (depth + 1) stack c point (frame.read inner c.advance).2
      (.resume frame (frame.read inner c.advance).1) :=
  (passes_advance hc hact).trans (passes_ask hsteps hinner hlimit hc.advance frame)

theorem passes_readSigned {sign : Sign} (kind : c.peek.kind.sign? = some sign) (least : Nat) :
    Passes scan limit h (depth + 1) stack c (.operand least) (inner.readSigned sign c).2
      (.climb least (inner.readSigned sign c).1) := by
  let frame := Frame.signed least sign c.peek
  have hact : (Point.operand least).act c.peek c.lastStop = .advance (.ask frame) := by
    cases hk : c.peek.kind <;> rw [hk] at kind <;> cases kind <;> simp only [Point.act, hk, frame]
  have hfound := at_frameRead hsteps hc.advance frame
  rw [readSigned_eq least]
  exact (passes_further hsteps hinner hlimit hc hact).trans (passes_go hfound rfl)

theorem passes_readRight {least : Nat} {left : Expr} {op : BinaryOp}
    (kind : c.peek.kind.binaryOp? = some op) (holds : ¬ op.leftBinding < least) :
    Passes scan limit h (depth + 1) stack c (.climb least left) (inner.readRight op c).2
      (.climb least (binary op c.peek.span left (inner.readRight op c).1
        (left.span.cover (inner.readRight op c).1.span))) := by
  let frame := Frame.right least left op c.peek
  have hact : (Point.climb least left).act c.peek c.lastStop = .advance (.ask frame) := by
    simp only [Point.act, kind, if_neg holds, frame]
  have hfound := at_frameRead hsteps hc.advance frame
  rw [readRight_eq least left]
  exact (passes_further hsteps hinner hlimit hc hact).trans (passes_go hfound rfl)

theorem passes_readGroup (kind : c.peek.kind = .openParen) (least : Nat) :
    Passes scan limit h (depth + 1) stack c (.operand least) (inner.readGroup c).2
      (.climb least (inner.readGroup c).1) := by
  let frame := Frame.content least c.peek
  have hact : (Point.operand least).act c.peek c.lastStop = .advance (.ask frame) := by
    simp only [Point.act, kind, frame]
  have hfound : (inner.read 0 c.advance).2.At scan := at_frameRead hsteps hc.advance frame
  refine (passes_further hsteps hinner hlimit hc hact).trans ?_
  unfold Nested.readGroup
  dsimp only
  split
  · next hclose => exact passes_closed hfound hclose least c.peek _
  · next hopen => exact passes_unclosed hfound hopen least c.peek _

theorem passes_readOperand (least : Nat) :
    Passes scan limit h (depth + 1) stack c (.operand least) (inner.readOperand c).2
      (.climb least (inner.readOperand c).1) := by
  refine inner.readOperand_cases (motive := fun found =>
      Passes scan limit h (depth + 1) stack c (.operand least) found.2 (.climb least found.1))
    (fun kind => passes_advance hc ?_)
    (fun sign kind => passes_readSigned hsteps hinner hlimit hc kind least)
    (fun kind => passes_readGroup hsteps hinner hlimit hc kind least)
    (fun hstarts => passes_report hc ?_)
  · simp only [Point.act, kind]
  · cases hk : c.peek.kind <;> rw [hk] at hstarts <;> cases hstarts <;> simp only [Point.act, hk]

omit hc in
theorem runsIn_climb (least : Nat) (left : Expr) (c : Cursor) (hc : c.At scan) :
    (scan.machine limit h).RunsIn stack
      (.standing scan c (depth + 1) stack (.inside (.climb least left)))
      (.standing scan (inner.climb least left c).2 depth stack
        (.leave (inner.climb least left c).1)) := by
  fun_induction inner.climb least left c with
  | case1 left c kind => exact runsIn_leave hc (by simp only [Point.act, kind])
  | case2 left c op kind hlt => exact runsIn_leave hc (by simp only [Point.act, kind, if_pos hlt])
  | case3 left c op kind holds right hlt ih =>
    exact (passes_readRight hsteps hinner hlimit hc kind holds).trans
      (ih (hc.steps (Nested.steps_readRight hsteps op c)))

/-- The machine carries out a reading with one level more. -/
theorem returns_readExpr (least : Nat) :
    (scan.machine limit h).Returns stack (.standing scan c depth stack (.enter least))
      (.standing scan (inner.readExpr least c).2 depth stack
        (.leave (inner.readExpr least c).1)) := by
  have hroom : depth < limit := by omega
  have henter : (scan.machine limit h).step (.standing scan c depth stack (.enter least)) =
      some (.standing scan c (depth + 1) stack (.inside (.operand least))) := by
    rw [step_standing hc]
    exact if_pos hroom
  refine ⟨.head ⟨State.not_leaves_of_enter rfl, henter⟩ ?_, rfl, _, rfl⟩
  exact (passes_readOperand hsteps hinner hlimit hc least).trans
    (runsIn_climb hsteps hinner hlimit least _ _ (hc.steps (Nested.steps_readOperand hsteps c)))

end Readings

/-- At the limit, the machine gives up where the parser does. -/
theorem carries_zero : Carries scan limit h (parseAt limit 0) 0 := by
  intro least c depth stack hc hlimit
  have hroom : ¬ depth < limit := by omega
  have hindex : (c.halt limit).index scan = scan.tokens.length := Nat.sub_zero _
  have hfound : (parseAt limit 0).read least c = (invalid (.point scan.stop), c.halt limit) := by
    rw [← hc.stop_eq]
    rfl
  refine ⟨.single ⟨State.not_leaves_of_enter rfl, ?_⟩, rfl, _, rfl⟩
  rw [step_standing hc, hfound]
  refine (if_neg hroom).trans ?_
  rw [giveUp_eq, State.report_standing]
  simp only [State.standing, hindex]
  rfl

/-- A call with some levels left is a reading of the parser with as many levels. -/
theorem carries_parseAt (levels : Nat) : Carries scan limit h (parseAt limit levels) levels := by
  induction levels with
  | zero => exact carries_zero
  | succ levels ih =>
    intro least c depth stack hc hlimit
    exact returns_readExpr (parseAt_steps limit levels) ih (by omega) hc least

/-! ## The whole text -/

/-- A text without tokens is reported as empty. -/
theorem runs_empty (hc : c.At scan) (hkind : c.peek.kind = .finish) :
    (scan.machine limit h).Runs (.standing scan c depth stack .start)
      (.standing scan (c.report .emptyExpression c.peek.span) depth stack
        (.trailing (invalid c.peek.span))) := by
  refine .single ?_
  rw [step_standing hc]
  refine (if_pos hkind).trans ?_
  rw [State.report_standing]
  rfl

/-- The machine reads all tokens from the first one on. -/
theorem runs_start (hc : c.At scan) (hkind : c.peek.kind ≠ .finish) :
    (scan.machine limit h).Runs (.standing scan c 0 [] .start)
      (.standing scan ((parseAt limit limit).read 0 c).2 0 []
        (.trailing ((parseAt limit limit).read 0 c).1)) := by
  have henter : (scan.machine limit h).step (.standing scan c 0 [] .start) =
      some (.standing scan c 0 [] (.enter 0)) := by
    rw [step_standing hc]
    exact if_neg hkind
  refine .head henter ((carries_parseAt limit 0 c 0 [] hc (Nat.zero_add limit)).runs.tail ?_)
  rw [step_standing (hc.steps (parseAt_steps limit limit 0 c))]
  rfl

/-- Behind the expression of the whole text there may be a last report. -/
theorem runs_trailing (hc : c.At scan) (tree : Expr) :
    (scan.machine limit h).Runs (.standing scan c depth stack (.trailing tree))
      (.standing scan c.reportTrailing depth stack (.done tree)) := by
  refine .single ?_
  rw [step_standing hc]
  unfold Cursor.reportTrailing
  by_cases hkind : c.peek.kind = .finish
  · rw [if_pos hkind]
    exact if_pos hkind
  · rw [if_neg hkind]
    refine (if_neg hkind).trans ?_
    rw [State.report_standing]
    rfl

/-- The machine comes to the end with what the parser finds. -/
theorem runs_readAll (scan : Scan) (limit : Nat)
    (h : ∀ token ∈ scan.tokens, token.kind ≠ .finish) :
    let found := readAll limit scan.tokens scan.stop
    (scan.machine limit h).Runs {} (.standing scan found.2 0 [] (.done found.1)) := by
  intro found
  let start : Cursor := { rest := scan.tokens, stop := scan.stop }
  have hstart : start.At scan := Cursor.at_start scan
  have hinit : ({} : State) = .standing scan start 0 [] .start := by
    rw [State.standing, Cursor.index, Nat.sub_self]
  rw [hinit]
  by_cases hnil : scan.tokens = []
  · have hpeek : start.peek = .finish scan.stop := Cursor.peek_of_nil hnil
    have hfound : found = (invalid (.point scan.stop),
        (start.report .emptyExpression (.point scan.stop)).reportTrailing) := by
      simp only [found, start, hnil]
      rfl
    refine (runs_empty hstart (by rw [hpeek]; rfl)).trans ?_
    rw [hfound, hpeek]
    exact runs_trailing (hstart.report _ _) _
  · obtain ⟨token, tokens, htokens⟩ := List.exists_cons_of_ne_nil hnil
    have hkind : start.peek.kind ≠ .finish := by
      rw [Cursor.peek_of_rest htokens]
      exact h token (htokens ▸ List.mem_cons_self)
    have hfound : found = _ := readAll_of_ne_nil limit scan.stop hnil
    rw [hfound]
    exact (runs_start hstart hkind).trans
      (runs_trailing (hstart.steps (parseAt_steps limit limit 0 _)) _)

/-! ## What the machine finds -/

/-- The cursor at which the machine stands. -/
def cursor (m : Machine) (s : State) : Cursor :=
  { rest := m.tokens.drop s.pos, stop := m.finish.span.start
    lastStop := Token.lastStop (m.tokens.take s.pos), log := s.log, halted := s.gaveUp }

theorem at_cursor (s : State) : ((scan.machine limit h).cursor s).At scan :=
  ⟨rfl, scan.tokens.take s.pos, (List.take_append_drop ..).symm, rfl⟩

theorem cursor_standing (hc : c.At scan) :
    (scan.machine limit h).cursor (.standing scan c depth stack control) = c := by
  obtain ⟨front, hfront, hlast⟩ := hc.exists_front
  have htake : scan.tokens.take (c.index scan) = front := by
    rw [Cursor.index_eq hfront, hfront, List.take_left]
  show Cursor.mk (scan.tokens.drop (c.index scan)) scan.stop
    (Token.lastStop (scan.tokens.take (c.index scan))) c.log c.halted = c
  rw [hc.drop_index, htake, ← hlast, ← hc.stop_eq]

theorem Sound.eq_standing {s : State} (hs : (scan.machine limit h).Sound s) :
    s = .standing scan ((scan.machine limit h).cursor s) s.depth s.stack s.control := by
  have hpos : s.pos ≤ scan.tokens.length := hs.pos_le
  have hindex : ((scan.machine limit h).cursor s).index scan = s.pos := by
    show scan.tokens.length - (scan.tokens.drop s.pos).length = s.pos
    rw [List.length_drop, Nat.sub_sub_self hpos]
  rw [State.standing, hindex]
  rfl

/-- What a call finds is what the parser reads with the levels that are left. -/
theorem Sound.found_of_returns {s s' : State} {least : Nat}
    (hs : (scan.machine limit h).Sound s) (control : s.control = .enter least)
    (hreturns : (scan.machine limit h).Returns s.stack s s') :
    let found := (parseAt limit (limit - s.depth)).read least ((scan.machine limit h).cursor s)
    s'.control = .leave found.1 ∧ (scan.machine limit h).cursor s' = found.2 := by
  intro found
  have hat : ((scan.machine limit h).cursor s).At scan := at_cursor s
  have hcarries := carries_parseAt (h := h) (limit - s.depth) least _ s.depth s.stack hat
    (Nat.add_sub_of_le hs.depth_le)
  rw [← control, ← hs.eq_standing] at hcarries
  obtain rfl := hreturns.unique hcarries
  exact ⟨rfl, cursor_standing (hat.steps (parseAt_steps ..))⟩

/-- The machine reads its tokens as the parser does. -/
structure Parses (m : Machine) : Prop where
  /-- What a call finds is what the parser reads with the levels that are left. -/
  call : ∀ s least s', m.Reaches s → s.control = .enter least → m.Returns s.stack s s' →
    let found := (parseAt m.limit (m.limit - s.depth)).read least (m.cursor s)
    s'.control = .leave found.1 ∧ m.cursor s' = found.2
  /-- The machine is done with what the parser finds in the text. -/
  done : ∃ s tree, m.Reaches s ∧ s.control = .done tree ∧
    parse m.limit m.tokens m.finish.span.start = (tree, s.log.reverse)

/-- On the tokens of a text, the machine does what the parser does. -/
theorem parses_of_finish {m : Machine} {stop : Nat} (hfinish : m.finish = .finish stop) :
    m.Parses := by
  obtain ⟨tokens, finish, limit, hkind, hne⟩ := m
  obtain rfl : finish = .finish stop := hfinish
  let scan : Scan := ⟨tokens, stop, none⟩
  exact {
    call := fun s least s' hreaches control hreturns => by
      have hsound : (scan.machine limit hne).Sound s := ((Sound.start _).runs hreaches).1
      exact hsound.found_of_returns control hreturns
    done := ⟨_, _, runs_readAll scan limit hne, rfl, parse_eq limit stop tokens⟩ }

end Expr.Machine

end Calculator

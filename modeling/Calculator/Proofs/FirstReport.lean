import Calculator.Proofs.Acceptance
import Calculator.Proofs.Grammar.Viable
import Calculator.Proofs.Reading
import Mathlib.Control.Monad.Basic

/-!
# The first report of a reading

A reading follows its tokens through the places of the grammar until it makes a report. The first
report is made where no further token may stand: on the token that may not stand there, or on the
operator or sign in front of it that waits for its operand.

* `Cursor.Accepts`: a reading that reports nothing leads from one place to another one.
* `Cursor.Blames`: what is known of the first report of any other reading.
* `Nested.Judges`: a reading accepts, is halted by the limit, or blames. Each part of the parser
  keeps this, and `readAll_judged` says it of a text as a whole.
* `Grammar.viable_iff`: the tokens that lead to a place are those that begin a sentence. The parser
  itself finds the sentence, with more levels than there are tokens.
* `Limits.first_report_earliest`: where the first report on a text is made.
-/

namespace Calculator

open Grammar

/-- A diagnostic is put down to an operator or a sign: it has no operand. -/
def Diagnostic.MissesOperand (d : Diagnostic) (last : Token) : Prop :=
  d.span = last.span ∧
    ((∃ op, last.kind.binaryOp? = some op ∧
      d.message = "expected expression after '" ++ op.symbol ++ "'") ∨
      ∃ sign, last.kind.sign? = some sign ∧
        d.message = "expected expression after unary '" ++ sign.symbol ++ "'")

/-- A report behind the tokens `front`, where `next` may not stand at `place`: it is put down to the
operator or the sign that waits for its operand, or else to `next`. -/
def Report.Blames (report : Report) (place : Place) (front : List Token) (next : Token) : Prop :=
  match place with
  | .waiting _ => ∃ last ∈ front.getLast?, report.span = last.span ∧
      ((∃ op, last.kind.binaryOp? = some op ∧ report.problem = .missingRight op) ∨
        ∃ sign, last.kind.sign? = some sign ∧ report.problem = .missingSigned sign)
  | _ => report.span = next.span

/-- Tokens in front of those that lead to the report do not matter to it. -/
theorem Report.Blames.append {report : Report} {place : Place} {front : List Token} {next : Token}
    (h : report.Blames place front next) (before : List Token) :
    report.Blames place (before ++ front) next := by
  cases place with
  | waiting depth =>
    obtain ⟨last, hlast, hreport⟩ := h
    refine ⟨last, ?_, hreport⟩
    rw [List.getLast?_append, Option.mem_def.mp hlast]
    rfl
  | opened | complete | finished => exact h

namespace Cursor

/-- From `c` to `c'` nothing was reported, and the tokens between lead from one place to the
other. -/
structure Accepts (place place' : Place) (c c' : Cursor) : Prop where
  log_eq : c'.log = c.log
  stop_eq : c'.stop = c.stop
  halted_eq : c'.halted = c.halted
  run : ∃ front, c.rest = front ++ c'.rest ∧ place.run (front.map Token.kind) = some place'

/-- The first report between `c` and `c'` was made where no further token may stand. -/
def Blames (place : Place) (c c' : Cursor) : Prop :=
  ∃ log first front next back place', c'.log = log ++ first :: c.log ∧
    c.rest ++ [.finish c.stop] = front ++ next :: back ∧
    place.run (front.map Token.kind) = some place' ∧ place'.step next.kind = none ∧
    first.Blames place' front next

/-- A reading from one place accepts what leads to the other, is halted, or blames. -/
def Verdict (place place' : Place) (c c' : Cursor) : Prop :=
  Accepts place place' c c' ∨ c'.halted = true ∨ Blames place c c'

variable {place place' place'' : Place} {c c' c'' : Cursor}

theorem Accepts.refl (place : Place) (c : Cursor) : Accepts place place c c :=
  ⟨rfl, rfl, rfl, [], rfl, rfl⟩

theorem Accepts.trans (h : Accepts place place' c c') (h' : Accepts place' place'' c' c'') :
    Accepts place place'' c c'' := by
  obtain ⟨front, hrest, hrun⟩ := h.run
  obtain ⟨front', hrest', hrun'⟩ := h'.run
  refine ⟨h'.log_eq.trans h.log_eq, h'.stop_eq.trans h.stop_eq, h'.halted_eq.trans h.halted_eq,
    front ++ front', by rw [hrest, hrest', List.append_assoc], ?_⟩
  rw [List.map_append, Place.run_append_of hrun, hrun']

/-- What is blamed behind tokens that are accepted is blamed in the whole. -/
theorem Accepts.trans_blames (h : Accepts place place' c c') (h' : Blames place' c' c'') :
    Blames place c c'' := by
  obtain ⟨before, hrest, hrun⟩ := h.run
  obtain ⟨log, first, front, next, back, at', hlog, hahead, hrun', hstep, hblames⟩ := h'
  refine ⟨log, first, before ++ front, next, back, at', by rw [hlog, h.log_eq], ?_, ?_, hstep,
    hblames.append before⟩
  · rw [hrest, List.append_assoc, ← h.stop_eq, hahead, List.append_assoc]
  · rw [List.map_append, Place.run_append_of hrun, hrun']

theorem Accepts.trans_verdict (h : Accepts place place' c c') (h' : Verdict place' place'' c' c'') :
    Verdict place place'' c c'' :=
  h'.imp h.trans (.imp_right h.trans_blames)

/-- The first report stays the first one. -/
theorem Blames.mono (h : Blames place c c') (hleads : c'.Leads c'') : Blames place c c'' := by
  obtain ⟨log, first, front, next, back, at', hlog, hrest⟩ := h
  obtain ⟨more, hmore⟩ := hleads.log_suffix
  exact ⟨more ++ log, first, front, next, back, at', by rw [← hmore, hlog, List.append_assoc],
    hrest⟩

/-- A verdict is followed up where the tokens are accepted, and stays as it is otherwise. -/
theorem Verdict.trans (h : Verdict place place' c c') (hleads : c'.Leads c'')
    (h' : Accepts place place' c c' → Verdict place' place'' c' c'') :
    Verdict place place'' c c'' := by
  rcases h with haccepts | hhalted | hblames
  · exact haccepts.trans_verdict (h' haccepts)
  · exact .inr (.inl (hleads.halted hhalted))
  · exact .inr (.inr (hblames.mono hleads))

theorem accepts_advance (hkind : c.peek.kind ≠ .finish)
    (hstep : place.step c.peek.kind = some place') : Accepts place place' c c.advance := by
  refine ⟨c.log_advance, c.stop_advance, c.halted_advance, [c.peek], rest_eq_cons hkind, ?_⟩
  rw [List.map_singleton, Place.run_singleton, hstep]

/-- A report on the next token, which may not stand here. -/
theorem blames_report (h : c.halted = false) {problem : Problem}
    (hstep : place.step c.peek.kind = none)
    (hblames : Report.Blames ⟨problem, c.peek.span⟩ place [] c.peek) :
    Blames place c (c.report problem c.peek.span) := by
  obtain ⟨back, hahead⟩ := c.exists_ahead
  refine ⟨[], ⟨problem, c.peek.span⟩, [], c.peek, back, place, ?_, hahead, rfl, hstep, hblames⟩
  rw [report_of_not_halted h]
  rfl

/-- A report on an operator or a sign behind which no operand starts. -/
theorem blames_missing {depth : Nat} {problem : Problem} (h : c.halted = false)
    (hkind : c.peek.kind ≠ .finish) (hstep : place.step c.peek.kind = some (.waiting depth))
    (hstarts : c.advance.peek.kind.startsExpr = false)
    (hproblem : (∃ op, c.peek.kind.binaryOp? = some op ∧ problem = .missingRight op) ∨
      ∃ sign, c.peek.kind.sign? = some sign ∧ problem = .missingSigned sign) :
    Blames place c (c.advance.report problem c.peek.span) := by
  have haccepts := accepts_advance hkind hstep
  obtain ⟨front, hrest, hrun⟩ := haccepts.run
  obtain ⟨back, hahead⟩ := c.advance.exists_ahead
  obtain rfl : [c.peek] = front := by
    rw [rest_eq_cons hkind] at hrest
    have hrest : [c.peek] ++ c.advance.rest = front ++ c.advance.rest := hrest
    exact List.append_cancel_right hrest
  refine ⟨[], ⟨problem, c.peek.span⟩, [c.peek], c.advance.peek, back, .waiting depth, ?_, ?_,
    hrun, Place.operandStep_eq_none_iff.mpr hstarts, c.peek, rfl, rfl, hproblem⟩
  · rw [report_of_not_halted (haccepts.halted_eq.trans h), haccepts.log_eq]
    rfl
  · rw [hrest, List.append_assoc, ← haccepts.stop_eq, hahead]

end Cursor

namespace Expr

namespace Nested

open Cursor

/-- A reading from a place where an operand is due reaches a verdict. Behind an operator or a sign,
a reading is only begun if an operand starts there. -/
def Judges (inner : Nested) : Prop :=
  ∀ (least : Nat) (c : Cursor) (place : Place) (depth : Nat), c.halted = false →
    (place = .opened depth ∨ place = .waiting depth ∧ c.peek.kind.startsExpr = true) →
      Verdict place (.complete depth) c (inner.read least c).2

/-- Every operator belongs to an expression as a whole, so none stands behind it. -/
theorem Stops.binaryOp?_eq_none {inner : Nested} (h : inner.Stops) (c : Cursor) :
    (inner.read 0 c).2.peek.kind.binaryOp? = none := by
  refine Option.eq_none_iff_forall_ne_some.mpr fun op hop => ?_
  have hrest := rest_eq_cons_of_binaryOp? hop
  exact absurd (h 0 c _ (by rw [hrest]; rfl) op hop) (Nat.not_lt_zero _)

variable {inner : Nested} (h : inner.Judges) {c : Cursor} (hc : c.halted = false) {place : Place}
  {depth : Nat}
include h hc

/-- A reading behind an operator or a sign. -/
theorem verdict_behind (hkind : c.peek.kind ≠ .finish)
    (hstep : place.step c.peek.kind = some (.waiting depth))
    (hs : c.advance.peek.kind.startsExpr = true) (least : Nat) :
    Verdict place (.complete depth) c (inner.read least c.advance).2 :=
  have haccepts := accepts_advance hkind hstep
  haccepts.trans_verdict (h _ _ _ depth (haccepts.halted_eq.trans hc) (.inr ⟨rfl, hs⟩))

theorem verdict_readSigned {sign : Sign} (kind : c.peek.kind.sign? = some sign)
    (hdue : place.Due depth) :
    Verdict place (.complete depth) c (inner.readSigned sign c).2 := by
  have hkind : c.peek.kind ≠ .finish := Token.Kind.ne_finish_of_sign? kind
  have hstep : place.step c.peek.kind = some (.waiting depth) := by
    rw [hdue.step_eq, Place.operandStep_of_sign? kind]
  cases hs : c.advance.peek.kind.startsExpr with
  | true =>
    rw [inner.readSigned_of_starts hs]
    exact verdict_behind h hc hkind hstep hs Sign.binding
  | false =>
    rw [inner.readSigned_of_not_starts hs]
    exact .inr (.inr (blames_missing hc hkind hstep hs (.inr ⟨sign, kind, rfl⟩)))

theorem verdict_readRight {op : BinaryOp} (kind : c.peek.kind.binaryOp? = some op) :
    Verdict (.complete depth) (.complete depth) c (inner.readRight op c).2 := by
  have hkind : c.peek.kind ≠ .finish := Token.Kind.ne_finish_of_binaryOp? kind
  have hstep : (Place.complete depth).step c.peek.kind = some (.waiting depth) :=
    Place.step_complete_of_binaryOp? kind
  cases hs : c.advance.peek.kind.startsExpr with
  | true =>
    rw [inner.readRight_of_starts hs]
    exact verdict_behind h hc hkind hstep hs op.rightBinding
  | false =>
    rw [inner.readRight_of_not_starts hs]
    exact .inr (.inr (blames_missing hc hkind hstep hs (.inl ⟨op, kind, rfl⟩)))

theorem verdict_readGroup (hstops : inner.Stops) (kind : c.peek.kind = .openParen)
    (hdue : place.Due depth) :
    Verdict place (.complete depth) c (inner.readGroup c).2 := by
  have hopen : Accepts place (.opened (depth + 1)) c c.advance :=
    accepts_advance (by rw [kind]; nofun) (by rw [hdue.step_eq, kind]; rfl)
  have hcontent := h 0 c.advance (.opened (depth + 1)) (depth + 1) (hopen.halted_eq.trans hc)
    (.inl rfl)
  refine (hopen.trans_verdict hcontent).trans (inner.leads_content c) fun haccepts => ?_
  by_cases hclose : (inner.read 0 c.advance).2.peek.kind = .closeParen
  · rw [inner.readGroup_of_closed hclose]
    exact .inl (accepts_advance (by rw [hclose]; nofun) (by rw [hclose]; rfl))
  · rw [inner.readGroup_of_not_closed hclose]
    have hstep : (Place.complete (depth + 1)).step (inner.read 0 c.advance).2.peek.kind = none :=
      Place.step_complete_succ_eq_none_iff.mpr ⟨hstops.binaryOp?_eq_none c.advance, hclose⟩
    exact .inr (.inr ((blames_report (haccepts.halted_eq.trans hc) hstep rfl).mono
      (leads_skipPastClose _)))

theorem verdict_readOperand (hstops : inner.Stops)
    (hplace : place = .opened depth ∨ place = .waiting depth ∧ c.peek.kind.startsExpr = true) :
    Verdict place (.complete depth) c (inner.readOperand c).2 := by
  have hdue : place.Due depth := hplace.imp_right And.left
  refine inner.readOperand_cases
    (motive := fun found => Verdict place (.complete depth) c found.2)
    (fun hk => .inl (accepts_advance (by rw [hk]; nofun) (by rw [hdue.step_eq, hk]; rfl)))
    (fun sign kind => verdict_readSigned h hc kind hdue)
    (fun hk => verdict_readGroup h hc hstops hk hdue) fun hs => ?_
  obtain rfl : place = .opened depth := by
    refine hplace.resolve_right fun hwaiting => ?_
    rw [hs] at hwaiting
    nomatch hwaiting.2
  exact .inr (.inr (blames_report hc (Place.operandStep_eq_none_iff.mpr hs) rfl))

omit hc in
/-- The loop over operators goes on behind a complete operand. -/
theorem verdict_climb (hleads : inner.Leads) (least : Nat) (left : Expr) (c : Cursor)
    (hc : c.halted = false) :
    Verdict (.complete depth) (.complete depth) c (inner.climb least left c).2 := by
  fun_induction inner.climb least left c with
  | case1 | case2 => exact .inl (.refl _ _)
  | case3 left c op hop hle right hlt ih =>
    exact (verdict_readRight h hc hop).trans (leads_climb hleads _ _ _) fun haccepts =>
      ih (haccepts.halted_eq.trans hc)

theorem verdict_readExpr (hleads : inner.Leads) (hstops : inner.Stops) (least : Nat)
    (hplace : place = .opened depth ∨ place = .waiting depth ∧ c.peek.kind.startsExpr = true) :
    Verdict place (.complete depth) c (inner.readExpr least c).2 :=
  (verdict_readOperand h hc hstops hplace).trans (leads_climb hleads _ _ _) fun haccepts =>
    verdict_climb h hleads least _ _ (haccepts.halted_eq.trans hc)

end Nested

theorem parseAt_judges (limit levels : Nat) : (parseAt limit levels).Judges := by
  induction levels with
  | zero => exact fun least c place depth _ _ => .inr (.inl rfl)
  | succ levels ih =>
    exact fun least c place depth hc hplace => Nested.verdict_readExpr ih hc
      (parseAt_leads limit levels) (parseAt_stops limit levels) least hplace

/-- A reading of all tokens accepts them as an expression, is halted by the limit, or blames. -/
theorem readAll_judged (limit stop : Nat) {tokens : List Token}
    (hfinish : ∀ token ∈ tokens, token.kind ≠ .finish) :
    ((readAll limit tokens stop).2.log = [] ∧
        (Place.opened 0).run (tokens.map Token.kind) = some (.complete 0)) ∨
      (readAll limit tokens stop).2.halted = true ∨
      Cursor.Blames (.opened 0) { rest := tokens, stop } (readAll limit tokens stop).2 := by
  by_cases hnil : tokens = []
  · subst hnil
    exact .inr (.inr (Cursor.blames_report rfl rfl rfl))
  rw [readAll_of_ne_nil _ _ hnil]
  let start : Cursor := { rest := tokens, stop }
  let c := ((parseAt limit limit).read 0 start).2
  have hleads : c.Leads c.reportTrailing := c.leads_reportTrailing
  rcases parseAt_judges limit limit 0 start (.opened 0) 0 rfl (.inl rfl) with
    haccepts | hhalted | hblames
  · by_cases hend : c.peek.kind = .finish
    · have hsuffix := (parseAt_leads limit limit 0 start).rest_suffix
      have hrest := Cursor.rest_eq_nil (fun token hmem => hfinish token (hsuffix.mem hmem)) hend
      have htrailing : c.reportTrailing = c := if_pos hend
      obtain ⟨front, hfront, hrun⟩ := haccepts.run
      obtain rfl : tokens = front := by rw [← List.append_nil front, ← hrest]; exact hfront
      refine .inl ⟨?_, hrun⟩
      show c.reportTrailing.log = []
      rw [htrailing]
      exact haccepts.log_eq
    · have htrailing : c.reportTrailing = c.report (.trailing c.peek.kind) c.peek.span :=
        if_neg hend
      have hop := (parseAt_stops limit limit).binaryOp?_eq_none start
      refine .inr (.inr (haccepts.trans_blames ?_))
      show Cursor.Blames _ _ c.reportTrailing
      rw [htrailing]
      exact Cursor.blames_report haccepts.halted_eq
        (Place.step_complete_zero_eq_none_iff.mpr ⟨hop, hend⟩) rfl
  · exact .inr (.inl (hleads.halted hhalted))
  · exact .inr (.inr (hblames.mono hleads))

end Expr

/-! ## Beginnings of sentences -/

namespace Grammar

open Calculator.Expr

/-- What leads from an open place to a complete one are the tokens of an expression. -/
theorem Derives.of_run {kinds : List Token.Kind}
    (h : (Place.opened 0).run kinds = some (.complete 0)) :
    ∃ tokens e need, tokens.map Token.kind = kinds ∧ Derives .expression tokens e need := by
  let tokens := kinds.map fun kind => (⟨kind, "", .point 0⟩ : Token)
  have hkinds : tokens.map Token.kind = kinds := by
    rw [List.map_map]
    exact List.map_id kinds
  have hfinish : ∀ token ∈ tokens, token.kind ≠ .finish := by
    intro token hmem hkind
    refine Place.finish_notMem_of_run h nofun ?_
    rw [← hkind, ← hkinds]
    exact List.mem_map_of_mem hmem
  -- The parser with more levels than tokens finds the derivation.
  rcases readAll_judged (tokens.length + 1) 0 hfinish with ⟨hlog, -⟩ | hhalted | hblames
  · have hparse : (parse (tokens.length + 1) tokens 0).2 = [] := by
      rw [Expr.parse_eq, hlog]
      rfl
    obtain ⟨need, -, hd⟩ := Derives.of_parse hfinish hparse
    exact ⟨tokens, _, need, hkinds, hd⟩
  · rw [halted_readAll 0 (Nat.lt_succ_self _)] at hhalted
    nomatch hhalted
  · obtain ⟨-, first, front, next, back, place, -, hahead, hrun, hstep, -⟩ := hblames
    have hall : (Place.opened 0).run ((tokens ++ [Token.finish 0]).map Token.kind) =
        some .finished := by
      rw [List.map_append, hkinds, Place.run_append_of h]
      rfl
    have hahead : tokens ++ [Token.finish 0] = front ++ next :: back := hahead
    rw [hahead, List.map_append, Place.run_append_of hrun, List.map_cons, Place.run_cons,
      hstep] at hall
    nomatch hall

/-- The beginnings of sentences are the tokens that lead to some place. -/
theorem viable_iff {kinds : List Token.Kind} :
    Viable kinds ↔ ∃ place, (Place.opened 0).run kinds = some place := by
  refine ⟨Viable.exists_run, fun ⟨place, hrun⟩ => ?_⟩
  by_cases hplace : place = .finished
  · subst hplace
    rcases List.eq_nil_or_concat kinds with rfl | ⟨front, kind, rfl⟩
    · nomatch hrun
    · rw [List.concat_eq_append] at hrun ⊢
      rw [Place.run_append] at hrun
      obtain ⟨before, hfront, hlast⟩ := Option.bind_eq_some_iff.mp hrun
      rw [Place.run_singleton, Place.step_eq_finished_iff] at hlast
      obtain ⟨rfl, rfl⟩ := hlast
      obtain ⟨tokens, e, need, rfl, hd⟩ := Derives.of_run hfront
      exact ⟨tokens, e, need, hd, List.prefix_rfl⟩
  · obtain ⟨more, hmore⟩ := Place.exists_run_complete hplace
    have hall : (Place.opened 0).run (kinds ++ more) = some (.complete 0) := by
      rw [Place.run_append_of hrun, hmore]
    obtain ⟨tokens, e, need, htokens, hd⟩ := Derives.of_run hall
    refine ⟨tokens, e, need, hd, more ++ [.finish], ?_⟩
    rw [htokens, List.append_assoc]

/-- The tokens up to the one at `k` are the beginning of no sentence, and those up to every earlier
one are. -/
def FirstStray (tokens : List Token) (k : Nat) : Prop :=
  ¬ Viable ((tokens.take (k + 1)).map Token.kind) ∧
    ∀ j < k, Viable ((tokens.take (j + 1)).map Token.kind)

/-- A token that may not stand at the place to which those in front of it lead is the first stray
one. -/
theorem firstStray_of_step {front back : List Token} {next : Token} {place : Place}
    (hrun : (Place.opened 0).run (front.map Token.kind) = some place)
    (hstep : place.step next.kind = none) : FirstStray (front ++ next :: back) front.length := by
  constructor
  · have htake : (front ++ next :: back).take (front.length + 1) = front ++ [next] := by
      rw [List.take_length_add_append]
      rfl
    rw [htake, List.map_append, viable_iff, Place.run_append_of hrun, List.map_singleton,
      Place.run_singleton, hstep]
    exact nofun
  · intro j hj
    rw [List.take_append_of_le_length hj]
    exact viable_iff.mpr
      (Place.exists_run_of_prefix ((List.take_prefix (j + 1) front).map Token.kind) hrun)

end Grammar

/-- What is blamed is the operator or the sign in front, if there is one, and else the next
token. -/
theorem Report.Blames.toDiagnostic {report : Report} {place : Place} {front : List Token}
    {next : Token} (h : report.Blames place front next)
    (hrun : (Place.opened 0).run (front.map Token.kind) = some place) :
    (∃ last ∈ front.getLast?, last.kind.AwaitsOperand ∧ report.toDiagnostic.MissesOperand last) ∨
      (∀ last ∈ front.getLast?, ¬ last.kind.AwaitsOperand) ∧
        report.toDiagnostic.span = next.span := by
  have hawaits := Place.awaits_iff hrun
  rw [List.getLast?_map] at hawaits
  by_cases hplace : ∃ depth, place = .waiting depth
  · obtain ⟨depth, rfl⟩ := hplace
    obtain ⟨last, hlast, hspan, ⟨op, hop, hproblem⟩ | ⟨sign, hsign, hproblem⟩⟩ := h
    · exact .inl ⟨last, hlast, .inl ⟨op, hop⟩, hspan,
        .inl ⟨op, hop, congrArg Problem.message hproblem⟩⟩
    · exact .inl ⟨last, hlast, .inr ⟨sign, hsign⟩, hspan,
        .inr ⟨sign, hsign, congrArg Problem.message hproblem⟩⟩
  · refine .inr ⟨fun last hlast hkind => hplace (hawaits.mpr ⟨last.kind, ?_, hkind⟩), ?_⟩
    · rw [Option.mem_def.mp hlast]
      rfl
    · cases place with
      | waiting depth => exact absurd ⟨depth, rfl⟩ hplace
      | opened | complete | finished => exact h

namespace Limits

/-- A text is rejected with what its analysis shows. -/
theorem diagnostics_of_parse_eq_error {limits : Limits} {text : String} {error : SyntaxError}
    (h : limits.parse text = .error error) :
    error.diagnostics = (Analysis.ofText limits.nesting text).diagnostics := by
  unfold parse at h
  dsimp only at h
  split at h
  · exact (congrArg SyntaxError.diagnostics (Except.error.inj h)).symm
  · nomatch h

/-- The first report is made at the earliest token that tells. A text that scans without a fault,
and is rejected without meeting the nesting limit, has a first token up to which it is the
beginning of no sentence. The first diagnostic has the span of this token, unless an operator or
a sign in front of it waits for its operand: then it has the span of that one, and says so. -/
theorem first_report_earliest {limits : Limits} {text : String} {error : SyntaxError}
    (hfault : (Scan.ofText text).fault = none)
    (hlimit : ¬ (Scan.ofText text).MeetsLimit limits.nesting)
    (h : limits.parse text = .error error) :
    let tokens := (Scan.ofText text).tokensToEnd
    ∃ k next first, FirstStray tokens k ∧ tokens[k]? = some next ∧
      error.diagnostics.head? = some first ∧
      ((∃ last ∈ (tokens.take k).getLast?, last.kind.AwaitsOperand ∧ first.MissesOperand last) ∨
        (∀ last ∈ (tokens.take k).getLast?, ¬ last.kind.AwaitsOperand) ∧
          first.span = next.span) := by
  intro tokens
  have hdiagnostics := (diagnostics_of_parse_eq_error h).trans
    (Analysis.diagnostics_ofText hfault limits.nesting)
  have hfinish : ∀ token ∈ (Scan.ofText text).tokens, token.kind ≠ .finish :=
    fun _ => Scan.kind_ne_finish_of_mem
  rcases Expr.readAll_judged limits.nesting (Scan.ofText text).stop hfinish with
    ⟨hlog, -⟩ | hhalted | hblames
  · have hparse : limits.parse text = .ok _ :=
      parse_eq_ok_iff.mpr ⟨hfault, by rw [Expr.parse_eq, hlog]; rfl⟩
    nomatch hparse.symm.trans h
  · exact absurd hhalted hlimit
  · obtain ⟨log, first, front, next, back, place, hlog, hahead, hrun, hstep, hblames⟩ := hblames
    have hahead : tokens = front ++ next :: back := hahead
    have htake : tokens.take front.length = front := by rw [hahead, List.take_left]
    refine ⟨front.length, next, first.toDiagnostic, ?_, ?_, ?_, ?_⟩
    · rw [hahead]
      exact firstStray_of_step hrun hstep
    · rw [hahead, List.getElem?_append_right (Nat.le_refl _), Nat.sub_self]
      rfl
    · rw [hdiagnostics, hlog]
      simp
    · rw [htake]
      exact hblames.toDiagnostic hrun

/-- The operator in front of the parenthesis is blamed, and not the parenthesis. -/
theorem first_report_earliest_operator :
    let tokens := (Scan.ofText "(2 * )").tokensToEnd
    let error : SyntaxError := ⟨[⟨"expected expression after '*'", ⟨3, 4⟩, []⟩]⟩
    ({} : Limits).parse "(2 * )" = .error error ∧
      ∃ k next first, FirstStray tokens k ∧ tokens[k]? = some next ∧
        error.diagnostics.head? = some first ∧
        ((∃ last ∈ (tokens.take k).getLast?, last.kind.AwaitsOperand ∧ first.MissesOperand last) ∨
          (∀ last ∈ (tokens.take k).getLast?, ¬ last.kind.AwaitsOperand) ∧
            first.span = next.span) := by
  intro tokens error
  have hfault : (Scan.ofText "(2 * )").fault = none := by decide +kernel
  have hlimit : ¬ (Scan.ofText "(2 * )").MeetsLimit ({} : Limits).nesting := by decide +kernel
  have hparse : ({} : Limits).parse "(2 * )" = .error error := by decide +kernel
  exact ⟨hparse, first_report_earliest hfault hlimit hparse⟩

end Limits

end Calculator

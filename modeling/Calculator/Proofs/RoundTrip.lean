import Calculator.Proofs.Acceptance
import Calculator.Proofs.EvaluationSpans
import Calculator.Proofs.Printing

/-!
# Parsing what was printed

A printed tree is parsed as the same tree up to spans. The text has the fewest parentheses that keep
the shape, and reading it needs no more levels than reading any other text with this tree.

* `Limits.parse_print_iff`: the limits under which a printed tree is parsed.
* `Limits.parse_print_of_parse`: the tree of an accepted text can be printed and parsed again.
* `Limits.round_trip`: both, with the text that is printed next and the value.
-/

namespace Calculator.Limits

open Grammar

variable {limits : Limits} {text : String} {e : Expr}

/-- A printed tree is parsed as this tree exactly under the limits that its text needs. -/
theorem parse_print_iff (h : e.WellFormed) :
    (∃ again, limits.parse e.print = .ok again ∧ again.bare = e.bare) ↔
      e.printNeed 0 ≤ limits.nesting := by
  constructor
  · rintro ⟨again, hagain, hbare⟩
    obtain ⟨need, hneed, hd⟩ := derives_of_parse hagain
    have hle := hd.printNeed_le (Nat.zero_le _)
    rw [hbare, Expr.bare, Expr.printNeed_mapSpan] at hle
    exact Nat.le_trans hle hneed
  · intro hneed
    obtain ⟨tokens, stop, hreads, hd⟩ := Expr.spells_printAt h 0 0 [] Numeral.ends_nil
    have hreads' : Scan.Reads 0 e.print.toList tokens stop [] := by
      rwa [Expr.print_eq, String.toList_ofList, ← List.append_nil (e.printAt 0)]
    obtain ⟨htokens, hfault⟩ := Scan.ofText_of_reads hreads'
    exact exists_parse_of_derives hfault (by rw [htokens]; exact hd) hneed

/-- The tree of an accepted text can be printed. -/
theorem wellFormed_of_parse (h : limits.parse text = .ok e) : e.WellFormed := by
  obtain ⟨need, -, hd⟩ := derives_of_parse h
  have hbare := hd.wellFormed fun _ => Scan.isLiteral_of_mem
  exact (Expr.wellFormed_mapSpan _ e).mp hbare

/-- The tree of an accepted text is parsed again from its own text, under the same limits. -/
theorem parse_print_of_parse (h : limits.parse text = .ok e) :
    ∃ again, limits.parse e.print = .ok again ∧ again.bare = e.bare := by
  obtain ⟨need, hneed, hd⟩ := derives_of_parse h
  have hle := hd.printNeed_le (Nat.zero_le _)
  rw [Expr.bare, Expr.printNeed_mapSpan] at hle
  exact (parse_print_iff (wellFormed_of_parse h)).mpr (Nat.le_trans hle hneed)

/-- Every tree without invalid parts whose numbers are literals is parsed from its own text as soon
as the limit has the levels for it. The tree of an accepted text is so under the same limit, and
the tree that comes back has the same text and, with spans left aside, the same value or error. -/
theorem round_trip :
    (∀ (e : Expr) (limits : Limits), e.WellFormed → e.printNeed 0 ≤ limits.nesting →
      ∃ again, limits.parse e.print = .ok again ∧ again.bare = e.bare) ∧
    ∀ (limits : Limits) (text : String) (e : Expr), limits.parse text = .ok e →
      ∃ again, limits.parse e.print = .ok again ∧ again.bare = e.bare ∧ again.print = e.print ∧
        ∀ limits' : Limits, (limits'.evaluate again).mapError EvalError.bare =
          (limits'.evaluate e).mapError EvalError.bare := by
  refine ⟨fun e limits h hneed => (parse_print_iff h).mpr hneed, fun limits text e h => ?_⟩
  obtain ⟨again, hagain, hbare⟩ := parse_print_of_parse h
  exact ⟨again, hagain, hbare, Expr.print_eq_of_bare_eq hbare,
    fun limits' => Expr.eval_bare_eq hbare limits'.depth⟩

/-- A chain that groups to the right, with a sign on a group, is parsed from its text twice. -/
theorem round_trip_chain :
    let one : Expr := .number "1" (.point 0)
    let e : Expr := .binary .sub (.point 0) one (.signed .minus
      (.binary .sub (.point 0) one (.number "2.5e3" (.point 0)) (.point 0)) (.point 0)) (.point 0)
    ∃ first again, ({ nesting := 5 } : Limits).parse e.print = .ok first ∧ first.bare = e ∧
      ({ nesting := 5 } : Limits).parse first.print = .ok again ∧ again.bare = e := by
  intro one e
  have hwell : e.WellFormed := by decide
  obtain ⟨first, hfirst, hbare⟩ := round_trip.1 e { nesting := 5 } hwell (by decide)
  obtain ⟨again, hagain, hbare', -⟩ := round_trip.2 { nesting := 5 } e.print first hfirst
  exact ⟨first, again, hfirst, hbare, hagain, hbare'.trans hbare⟩

end Calculator.Limits

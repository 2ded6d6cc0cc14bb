import Calculator.Limits
import Calculator.Proofs.Grammar.Complete
import Calculator.Proofs.Grammar.Sound
import Calculator.Proofs.Scan

/-!
# Which texts are accepted

A text is accepted if it scans without a fault and its tokens are an expression of the grammar that
the nesting limit has the levels for. Its tree is that of the derivation.

* `Limits.parse_eq_ok_iff`: acceptance, in terms of the scan and the parser.
* `Limits.accepts_iff_derives`: acceptance, in terms of the grammar.
-/

namespace Calculator.Limits

open Grammar

variable {limits : Limits} {text : String} {e tree : Expr} {need : Nat}

theorem parse_eq_ok_iff : limits.parse text = .ok tree ↔ (Scan.ofText text).fault = none ∧
    Expr.parse limits.nesting (Scan.ofText text).tokens (Scan.ofText text).stop = (tree, []) := by
  have hreports : (Analysis.ofText limits.nesting text).hasReports = false ↔
      (Scan.ofText text).fault = none ∧ (Expr.parse limits.nesting (Scan.ofText text).tokens
        (Scan.ofText text).stop).2 = [] := by
    unfold Analysis.hasReports Analysis.ofText Analysis.ofScan
    cases (Scan.ofText text).fault <;> simp
  unfold parse
  dsimp only
  split
  · next h =>
    refine iff_of_false nofun fun ⟨hfault, hparse⟩ => ?_
    rw [hreports.mpr ⟨hfault, by rw [hparse]⟩] at h
    nomatch h
  · next h =>
    obtain ⟨hfault, hnil⟩ := hreports.mp (Bool.eq_false_iff.mpr h)
    refine ⟨fun heq => ⟨hfault, Prod.ext (Except.ok.inj heq) hnil⟩, fun ⟨_, hparse⟩ => ?_⟩
    exact congrArg Except.ok (congrArg Prod.fst hparse)

/-- What is accepted is an expression. -/
theorem derives_of_parse (h : limits.parse text = .ok tree) :
    ∃ need ≤ limits.nesting, Derives .expression (Scan.ofText text).tokens tree.bare need := by
  have hparse := (parse_eq_ok_iff.mp h).2
  have hd := Derives.of_parse (fun _ => Scan.kind_ne_finish_of_mem) (congrArg Prod.snd hparse)
  rwa [hparse] at hd

/-- An expression for which there are enough levels is accepted. -/
theorem exists_parse_of_derives (hfault : (Scan.ofText text).fault = none)
    (h : Derives .expression (Scan.ofText text).tokens e need) (hneed : need ≤ limits.nesting) :
    ∃ tree, limits.parse text = .ok tree ∧ tree.bare = e := by
  obtain ⟨hreports, hbare⟩ := h.parse_eq hneed (Scan.ofText text).stop
  exact ⟨_, parse_eq_ok_iff.mpr ⟨hfault, Prod.ext rfl hreports⟩, hbare⟩

/-- A text is accepted, with a given tree up to spans, exactly if it scans without a fault and its
tokens are an expression with that tree for which there are enough levels. What a token holds, and
with it a number in the tree, is the piece of the text under the token's span. -/
theorem accepts_iff_derives (limits : Limits) (text : String) :
    (∀ e, (∃ tree, limits.parse text = .ok tree ∧ tree.bare = e) ↔
      (Scan.ofText text).fault = none ∧ ∃ need ≤ limits.nesting,
        Derives .expression (Scan.ofText text).tokens e need) ∧
      ∀ token ∈ (Scan.ofText text).tokens, token.span.Cuts text token.text := by
  refine ⟨fun e => ⟨?_, ?_⟩, fun token => Scan.cuts_of_mem⟩
  · rintro ⟨tree, h, rfl⟩
    exact ⟨(parse_eq_ok_iff.mp h).1, derives_of_parse h⟩
  · rintro ⟨hfault, need, hneed, h⟩
    exact exists_parse_of_derives hfault h hneed

end Calculator.Limits

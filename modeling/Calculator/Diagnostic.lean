import Calculator.Position
import Calculator.Span

/-!
# Diagnostics

A diagnostic is a message about a span of a text, with labels that point at related spans.
`Diagnostic.renderAll` shows a list of them, ordered by position: an error line, a line with the
position, and one line for each label.

* `Diagnostic.Before`: the order in which diagnostics are shown: by start, then by end, then by
  message. It is transitive and total.
* `Diagnostic.sorted_perm` and `Diagnostic.pairwise_sorted`: `sorted` loses and adds nothing, and
  its result is in that order. The sort is stable.
-/

namespace Calculator

/-- A further span that a diagnostic points at. -/
structure Label where
  span : Span
  message : String
deriving DecidableEq, Repr

/-- A message about a span of a text. -/
structure Diagnostic where
  message : String
  span : Span
  labels : List Label := []
deriving DecidableEq, Repr

namespace Diagnostic

/-- Diagnostic `a` is shown no later than `b`: it starts earlier, or it ends earlier, or its message
comes no later. Messages compare by code points, which is also the order of their UTF-8 bytes. -/
def Before (a b : Diagnostic) : Prop :=
  a.span.start < b.span.start ∨ a.span.start = b.span.start ∧
    (a.span.stop < b.span.stop ∨ a.span.stop = b.span.stop ∧ a.message ≤ b.message)

instance (a b : Diagnostic) : Decidable (a.Before b) := inferInstanceAs (Decidable (_ ∨ _))

theorem Before.trans {a b c : Diagnostic} (h : a.Before b) (h' : b.Before c) : a.Before c := by
  rcases h with h | ⟨hs, h⟩ <;> rcases h' with h' | ⟨hs', h'⟩
  · exact .inl (by omega)
  · exact .inl (by omega)
  · exact .inl (by omega)
  · refine .inr ⟨by omega, ?_⟩
    rcases h with h | ⟨he, h⟩ <;> rcases h' with h' | ⟨he', h'⟩
    · exact .inl (by omega)
    · exact .inl (by omega)
    · exact .inl (by omega)
    · exact .inr ⟨by omega, String.le_trans h h'⟩

theorem Before.total (a b : Diagnostic) : a.Before b ∨ b.Before a := by
  rcases Nat.lt_trichotomy a.span.start b.span.start with h | h | h
  · exact .inl (.inl h)
  · rcases Nat.lt_trichotomy a.span.stop b.span.stop with h' | h' | h'
    · exact .inl (.inr ⟨h, .inl h'⟩)
    · exact (String.le_total a.message b.message).imp
        (fun hm => .inr ⟨h, .inr ⟨h', hm⟩⟩) (fun hm => .inr ⟨h.symm, .inr ⟨h'.symm, hm⟩⟩)
    · exact .inr (.inr ⟨h.symm, .inl h'⟩)
  · exact .inr (.inl h)

/-- The diagnostics in the order in which they are shown; equal ones keep their order. -/
def sorted (ds : List Diagnostic) : List Diagnostic := ds.mergeSort fun a b => a.Before b

theorem sorted_perm (ds : List Diagnostic) : (sorted ds).Perm ds := List.mergeSort_perm ..

theorem pairwise_sorted (ds : List Diagnostic) : (sorted ds).Pairwise Before := by
  have h := @List.pairwise_mergeSort _ (fun a b : Diagnostic => decide (a.Before b))
    (fun a b c hab hbc => by simp_all; exact hab.trans hbc)
    (fun a b => by simpa using Before.total a b) ds
  simpa [sorted] using h

/-- The bytes of a span, as in `[3..5]`. -/
def spanText (span : Span) : String :=
  "[" ++ toString span.start ++ ".." ++ toString span.stop ++ "]"

/-- A line and a column, as in `2:7`. -/
def positionText (position : Position) : String :=
  toString position.line ++ ":" ++ toString position.column

/-- The line that shows a label. -/
def labelLine (lines : LineTable) (label : Label) : String :=
  "  = label: " ++ positionText (lines.position label.span.start) ++ " " ++ spanText label.span ++
    " " ++ label.message ++ "\n"

/-- The lines that show one diagnostic. -/
def render (lines : LineTable) (d : Diagnostic) : String :=
  "error: " ++ d.message ++ "\n" ++
    "  --> <input>:" ++ positionText (lines.position d.span.start) ++ " " ++ spanText d.span ++
    "\n" ++ String.join (d.labels.map (labelLine lines))

/-- The lines that show all diagnostics about `text`. -/
def renderAll (text : String) (ds : List Diagnostic) : String :=
  String.join ((sorted ds).map (render (.ofText text)))

end Diagnostic

end Calculator

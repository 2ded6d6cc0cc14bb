import Mathlib.Data.Prod.Lex
import Calculator.Diagnostic
import Calculator.Proofs.LinesAndColumns

/-!
# Rendered diagnostics

Diagnostics are shown one after the other, in the order of their keys: the two ends of their spans
and then the bytes of their messages. Those with one key keep their order. So what is shown depends
on the order of a list only where two of its members differ in nothing but their labels.

* `Diagnostic.key_le_key_iff`: the order in which diagnostics are shown is that of their keys.
* `Diagnostic.filter_sorted`: the sort is stable.
* `Diagnostic.renderAll_stable`: what is shown of a list, and of another order of it.
-/

namespace Calculator

/-! ## The order of the keys -/

namespace Diagnostic

/-- What diagnostics are ordered by: the ends of the span, and the bytes of the message. -/
def key (d : Diagnostic) : Nat ×ₗ Nat ×ₗ List Nat :=
  toLex (d.span.start, toLex (d.span.stop, Text.bytes d.message))

variable {a b : Diagnostic}

theorem key_le_key_iff : a.key ≤ b.key ↔ a.Before b := by
  simp only [key, Prod.Lex.toLex_le_toLex, Text.bytes_le_iff]
  rfl

theorem key_eq_key_iff : a.key = b.key ↔ a.span = b.span ∧ a.message = b.message := by
  simp only [key, EmbeddingLike.apply_eq_iff_eq, Prod.mk.injEq, Text.bytes_inj, ← and_assoc]
  exact and_congr_left' (Span.mk.injEq ..).to_iff.symm

/-- Diagnostics with one key keep their order. -/
theorem filter_sorted (ds : List Diagnostic) (k : Nat ×ₗ Nat ×ₗ List Nat) :
    (sorted ds).filter (·.key = k) = ds.filter (·.key = k) := by
  have hpairwise : (ds.filter (·.key = k)).Pairwise fun a b => decide (a.Before b) := by
    refine List.pairwise_of_forall_mem_list fun a ha b hb => decide_eq_true ?_
    have ha : a.key = k := by simpa using (List.mem_filter.mp ha).2
    have hb : b.key = k := by simpa using (List.mem_filter.mp hb).2
    exact key_le_key_iff.mp (le_of_eq (ha.trans hb.symm))
  have hsublist : (ds.filter (·.key = k)).Sublist (sorted ds) :=
    List.sublist_mergeSort (fun a b c hab hbc => decide_eq_true
      ((of_decide_eq_true hab).trans (of_decide_eq_true hbc)))
      (fun a b => by simpa using Before.total a b) hpairwise List.filter_sublist
  have hfilter := hsublist.filter (·.key = k)
  simp only [List.filter_filter, Bool.and_self] at hfilter
  exact (hfilter.eq_of_length ((sorted_perm ds).filter _).length_eq.symm).symm

/-! ## What is shown -/

/-- The lines that show a diagnostic about `text`: its message, its place, and one line for each
label. A place is a line and a column, and the bytes in brackets. -/
def lines (text : String) (d : Diagnostic) : List String :=
  let place (span : Span) :=
    let position := Text.position text span.start
    toString position.line ++ ":" ++ toString position.column ++ " [" ++ toString span.start ++
      ".." ++ toString span.stop ++ "]"
  ["error: " ++ d.message, "  --> <input>:" ++ place d.span] ++
    d.labels.map fun label => "  = label: " ++ place label.span ++ " " ++ label.message

theorem render_ofText (text : String) (d : Diagnostic) :
    render (.ofText text) d = String.join ((d.lines text).map (· ++ "\n")) := by
  have hbracket : " [" = " " ++ "[" := rfl
  unfold render labelLine lines positionText spanText
  simp only [hbracket, LineTable.position_ofText, List.map_append, List.map_map, List.map_cons,
    List.map_nil, String.join_append, String.join_cons, String.join_nil, String.append_assoc,
    String.append_empty, Function.comp_def]

theorem renderAll_eq (text : String) (ds : List Diagnostic) :
    renderAll text ds =
      String.join ((sorted ds).flatMap fun d => (d.lines text).map (· ++ "\n")) := by
  rw [renderAll]
  induction sorted ds with
  | nil => rfl
  | cons d ds ih =>
    rw [List.map_cons, String.join_cons, List.flatMap_cons, String.join_append, ih, render_ofText]

/-- Another order of a list has the same sorted list, if its members with one key are equal. -/
theorem sorted_eq_of_perm {ds ds' : List Diagnostic} (hperm : ds'.Perm ds)
    (hties : ∀ a ∈ ds, ∀ b ∈ ds, a.span = b.span → a.message = b.message → a.labels = b.labels) :
    sorted ds' = sorted ds := by
  have hperm' : (sorted ds').Perm (sorted ds) :=
    (sorted_perm ds').trans (hperm.trans (sorted_perm ds).symm)
  refine hperm'.eq_of_pairwise (fun a b ha hb hab hba => ?_) (pairwise_sorted ds')
    (pairwise_sorted ds)
  have ha := hperm.mem_iff.mp ((sorted_perm ds').mem_iff.mp ha)
  have hb := (sorted_perm ds).mem_iff.mp hb
  obtain ⟨hspan, hmessage⟩ := key_eq_key_iff.mp
    (le_antisymm (key_le_key_iff.mpr hab) (key_le_key_iff.mpr hba))
  have hlabels := hties a ha b hb hspan hmessage
  cases a
  cases b
  simp_all only

/-- What is shown of a list are the lines of its members, in an order that is sorted by their keys
and keeps the order of those with one key. What is shown of another order of the list is the same,
if no two members differ in their labels only. -/
theorem renderAll_stable (text : String) (ds : List Diagnostic) :
    (∃ ordered : List Diagnostic, ordered.Perm ds ∧
      ordered.Pairwise (fun a b => a.key ≤ b.key) ∧
      (∀ k, ordered.filter (·.key = k) = ds.filter (·.key = k)) ∧
      renderAll text ds =
        String.join (ordered.flatMap fun d => (d.lines text).map (· ++ "\n"))) ∧
    ∀ ds' : List Diagnostic, ds'.Perm ds →
      (∀ a ∈ ds, ∀ b ∈ ds, a.span = b.span → a.message = b.message → a.labels = b.labels) →
      renderAll text ds' = renderAll text ds := by
  refine ⟨⟨sorted ds, sorted_perm ds, ?_, filter_sorted ds, renderAll_eq text ds⟩,
    fun ds' hperm hties => ?_⟩
  · exact (pairwise_sorted ds).imp key_le_key_iff.mpr
  · rw [renderAll_eq, renderAll_eq, sorted_eq_of_perm hperm hties]

/-- Two open groups are reported at one place and differ in their labels only: they are shown in the
order in which they are given, in front of a place beyond the text. For one of them and that place,
the order in which they are given does not matter. -/
theorem renderAll_stable_open_groups :
    let inner : Diagnostic := ⟨"expected ')'", ⟨6, 6⟩, [⟨⟨1, 2⟩, "this '(' is not closed"⟩]⟩
    let outer : Diagnostic := ⟨"expected ')'", ⟨6, 6⟩, [⟨⟨0, 1⟩, "this '(' is not closed"⟩]⟩
    let beyond : Diagnostic := ⟨"numeric result out of range", ⟨40, 41⟩, []⟩
    renderAll "((1 +\n" [beyond, inner, outer] =
      "error: expected ')'\n  --> <input>:2:1 [6..6]\n" ++
      "  = label: 1:2 [1..2] this '(' is not closed\n" ++
      "error: expected ')'\n  --> <input>:2:1 [6..6]\n" ++
      "  = label: 1:1 [0..1] this '(' is not closed\n" ++
      "error: numeric result out of range\n  --> <input>:2:35 [40..41]\n" ∧
    renderAll "((1 +\n" [inner, beyond] = renderAll "((1 +\n" [beyond, inner] := by
  intro inner outer beyond
  refine ⟨?_, (renderAll_stable _ [_, _]).2 [_, _] (.swap ..) (by decide +kernel)⟩
  obtain ⟨ordered, hperm, hsorted, hfilter, hrender⟩ :=
    (renderAll_stable "((1 +\n" [beyond, inner, outer]).1
  have hties : ordered.filter (·.key = inner.key) = [inner, outer] :=
    (hfilter inner.key).trans (by decide +kernel)
  obtain ⟨a, b, c, rfl⟩ := List.length_eq_three.mp hperm.length_eq
  have ha : a ∈ [beyond, inner, outer] := hperm.mem_iff.mp (by simp)
  have hb : b ∈ [beyond, inner, outer] := hperm.mem_iff.mp (by simp)
  have hc : c ∈ [beyond, inner, outer] := hperm.mem_iff.mp (by simp)
  have hordered : ∀ a ∈ [beyond, inner, outer], ∀ b ∈ [beyond, inner, outer],
      ∀ c ∈ [beyond, inner, outer], [a, b, c].Pairwise (fun a b => a.key ≤ b.key) →
        [a, b, c].filter (·.key = inner.key) = [inner, outer] →
          [a, b, c] = [inner, outer, beyond] := by
    decide +kernel
  rw [hrender, hordered a ha b hb c hc hsorted hties]
  decide +kernel

end Diagnostic

end Calculator
